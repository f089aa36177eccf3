import Mathlib.Logic.Equiv.Basic
import Neo.Network.RoutingTable

/-! The tables of a configuration file, with the keys that the parser asks for. A key that is not
there, or whose value has another type, is `none`. -/

namespace Neo

namespace ConfigParser

abbrev Text := List Char

instance instLawfulBEqText : LawfulBEq Text := inferInstance

structure InterfaceTbl where
  name : Option Text
  ipv4 : Option Text

structure RouteTbl where
  network : Option Text
  nextHop : Option Text
  interface : Option Text
  admDist : Option Int

structure PortTbl where
  port : Option Int
  protocol : Option Text

structure EnvTbl where
  name : Option Text
  value : Option Text

structure MountTbl where
  mountPath : Option Text
  hostPath : Option Text
  driver : Option Text
  readOnly : Option Bool

structure SysctlTbl where
  key : Option Text
  value : Option Text

/-- An element of a list of texts is `none` where it is no text. -/
structure ContainerTbl where
  image : Option Text
  workingDir : Option Text
  dpdk : Option Bool
  command : Option (List (Option Text))
  args : Option (List (Option Text))
  configFiles : Option (List (Option Text))
  ports : Option (List PortTbl)
  env : Option (List EnvTbl)
  volumeMounts : Option (List MountTbl)
  sysctls : Option (List SysctlTbl)

structure NodeTbl where
  type : Option Text
  driver : Option Text
  name : Option Text
  interfaces : Option (List InterfaceTbl)
  staticRoutes : Option (List RouteTbl)
  installedRoutes : Option (List RouteTbl)
  startDelay : Option Int
  resetDelay : Option Int
  replayDelay : Option Int
  packetsPerInjection : Option Int
  daemon : Option Text
  container : Option ContainerTbl

structure LinkTbl where
  node1 : Option Text
  intf1 : Option Text
  node2 : Option Text
  intf2 : Option Text

structure UpdateTbl where
  node : Option Text
  network : Option Text
  outport : Option Text

structure NetworkTbl where
  nodes : Option (List NodeTbl)
  links : Option (List LinkTbl)

/-! ### Reading keys -/

/-- `if (!key) logger.error(msg)`. -/
def require {α : Type} (msg : String) : Option α → Except Text α
  | some a => .ok a
  | none => .error msg.toList

/-- `if (bad) logger.error(msg)`. -/
def reject (bad : Prop) [Decidable bad] (msg : Text) : Except Text Unit :=
  if bad then .error msg else .ok ()

@[simp] theorem require_eq_ok {α : Type} {msg : String} {o : Option α} {a : α} :
    require msg o = .ok a ↔ o = some a := by
  cases o <;> simp [require]

@[simp] theorem reject_eq_ok {bad : Prop} [Decidable bad] {msg : Text} {u : Unit} :
    reject bad msg = .ok u ↔ ¬bad := by
  unfold reject
  split <;> simp_all

/-! ### Names -/

def codeText : Text → Nat
  | [] => 0
  | c :: s => codeText s * 0x110001 + (c.toNat + 1)

theorem codeText_cons (c : Char) (s : Text) :
    codeText (c :: s) = codeText s * 0x110001 + (c.toNat + 1) := by
  rw [codeText]

theorem codeText_ne_zero (c : Char) (s : Text) : codeText (c :: s) ≠ 0 := by
  rw [codeText_cons]
  omega

theorem toNat_lt (c : Char) : c.toNat < 0x110000 := by
  rcases c.valid with h | h
  · exact h.trans (by decide)
  · exact h.2

theorem codeText_injective : Function.Injective codeText := by
  intro s
  induction s with
  | nil =>
    intro t h
    cases t with
    | nil => rfl
    | cons c t => exact absurd h.symm (codeText_ne_zero c t)
  | cons c s ih =>
    intro t h
    cases t with
    | nil => exact absurd h (codeText_ne_zero c s)
    | cons d t =>
      have hc := toNat_lt c
      have hd := toNat_lt d
      rw [codeText_cons, codeText_cons] at h
      have htext : codeText s = codeText t := by omega
      have hchar : c.toNat = d.toNat := by omega
      rw [ih htext, Char.toNat_inj.mp hchar]

end ConfigParser

def IntfName.ofText (s : ConfigParser.Text) : IntfName :=
  Equiv.swap 1 (ConfigParser.codeText "lo".toList) (ConfigParser.codeText s)

namespace IntfName

theorem ofText_injective : Function.Injective ofText :=
  (Equiv.injective _).comp ConfigParser.codeText_injective

theorem ofText_nil : ofText [] = 0 :=
  Equiv.swap_apply_of_ne_of_ne Nat.zero_ne_one
    (ConfigParser.codeText_injective.ne (List.cons_ne_nil 'l' ['o']).symm)

theorem ofText_lo : ofText "lo".toList = 1 := Equiv.swap_apply_right _ _

end IntfName

end Neo
