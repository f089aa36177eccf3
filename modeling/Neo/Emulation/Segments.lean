import Neo.Emulation.Libnet
import Neo.Emulation.SendPkt
import Neo.Lib.Groups

/-! The segments of one message are put together. On each interface a segment that continues the
packet before it is merged with it, as long as the sequence numbers do not wrap around; packets of
one flow that are no TCP packets make an assertion fail. -/

namespace Neo

namespace Net

open Packet

def isAck (pkt : Packet) : Bool :=
  pkt.protoState == 0x800 + thAck || pkt.protoState == 0x800 + (thPush + thAck)

def flowOf (p : Packet) : IPv4Address × IPv4Address × BitVec 16 × BitVec 16 :=
  (p.srcIp, p.dstIp, p.srcPort, p.dstPort)

def follows (p q : Packet) : Bool :=
  flowOf p == flowOf q && isAck p && isAck q &&
    p.seq + BitVec.ofNat 32 (Payload.size p.payload) == q.seq && p.ack == q.ack

def bytes (pkts : List Packet) : Payload := pkts.flatMap fun p => p.payload.getD []

inductive Joined : List Packet → Packet → Prop
  | single (p : Packet) : Joined [p] p
  | segments (p q : Packet) (qs : List Packet) :
      Joined (p :: q :: qs) { p with payload := some (bytes (p :: q :: qs)) }

def Merges (pkts out : List Packet) : Prop :=
  ∃ gs, Groups follows pkts gs ∧ List.Forall₂ Joined gs out

def flowBytes (flow : IPv4Address × IPv4Address × BitVec 16 × BitVec 16) (pkts : List Packet) :
    Payload :=
  bytes (pkts.filter fun p => p.protoState.isTcp && flowOf p == flow)

/-- Packets of one flow that come one after the other: the first one is a TCP packet and, if it
acknowledges, the second one too; and a segment that follows starts below 2^32. -/
def Adjoin (p q : Packet) : Prop :=
  flowOf p = flowOf q → p.protoState.isFlags = true ∧
    (isAck p = true → q.protoState.isFlags = true) ∧
    (follows p q = true → p.seq.toNat + Payload.size p.payload < 2 ^ 32)

def onIntf (intf : Option IntfPtr) (pkts : List Packet) : List Packet :=
  pkts.filter fun p => decide (p.intf = intf)

variable {lp p q : Packet}

theorem isFlags_of_isAck (h : isAck p = true) : p.protoState.isFlags = true := by
  simp only [isAck, Bool.or_eq_true, beq_iff_eq] at h
  rcases h with h | h
  · rw [h]
    decide
  · rw [h]
    decide

theorem isTcpAckOrPshAck_eq (pkt : Packet) :
    isTcpAckOrPshAck pkt = if pkt.protoState.isFlags then some (isAck pkt) else none := by
  unfold isTcpAckOrPshAck assert
  split_ifs
  all_goals rfl

theorem continues_eq (lp p : Packet) :
    continues lp p = if flowOf lp = flowOf p then
        if lp.protoState.isFlags then
          if isAck lp then
            if p.protoState.isFlags then
              some (isAck p && lp.seq.toNat + Payload.size lp.payload == p.seq.toNat &&
                lp.ack == p.ack)
            else none
          else some false
        else none
      else some false := by
  unfold continues
  simp only [isTcpAckOrPshAck_eq, flowOf, Prod.mk.injEq]
  by_cases hflow : lp.srcIp = p.srcIp ∧ lp.dstIp = p.dstIp ∧ lp.srcPort = p.srcPort ∧
      lp.dstPort = p.dstPort
  · rw [if_pos hflow, if_pos hflow]
    cases lp.protoState.isFlags with
    | false => rfl
    | true =>
      cases isAck lp with
      | false => rfl
      | true => cases p.protoState.isFlags <;> rfl
  · rw [if_neg hflow, if_neg hflow]
    rfl

theorem continues_eq_true : continues lp p = some true ↔
    follows lp p = true ∧ lp.seq.toNat + Payload.size lp.payload < 2 ^ 32 := by
  have hseq : lp.seq.toNat + Payload.size lp.payload = p.seq.toNat ↔
      lp.seq + BitVec.ofNat 32 (Payload.size lp.payload) = p.seq ∧
        lp.seq.toNat + Payload.size lp.payload < 2 ^ 32 := by
    rw [← BitVec.toNat_inj, BitVec.toNat_add, BitVec.toNat_ofNat, Nat.add_mod_mod]
    have hlt := p.seq.isLt
    constructor
    · intro h
      rw [h]
      exact ⟨Nat.mod_eq_of_lt hlt, hlt⟩
    · rintro ⟨h, hsum⟩
      rw [← h, Nat.mod_eq_of_lt hsum]
  rw [continues_eq]
  by_cases hflow : flowOf lp = flowOf p
  · by_cases hack : isAck lp = true
    · by_cases hack' : isAck p = true
      · simp [follows, hflow, hack, hack', isFlags_of_isAck hack, isFlags_of_isAck hack', hseq]
        tauto
      · have hnot : follows lp p = false := by
          simp [follows, hack']
        rw [hnot]
        split_ifs <;> simp [hack']
    · have hnot : follows lp p = false := by
        simp [follows, hack]
      rw [hnot]
      split_ifs <;> simp
  · simp [follows, hflow]

theorem adjoin_iff : Adjoin p q ↔ continues p q = some (follows p q) := by
  constructor
  · intro h
    by_cases hfollows : follows p q = true
    · have hflow : flowOf p = flowOf q := by
        simp only [follows, Bool.and_eq_true, beq_iff_eq] at hfollows
        exact hfollows.1.1.1.1
      rw [hfollows]
      exact continues_eq_true.mpr ⟨hfollows, (h hflow).2.2 hfollows⟩
    · have hnot : continues p q ≠ some true := fun hcont =>
        hfollows (continues_eq_true.mp hcont).1
      rw [Bool.not_eq_true] at hfollows
      rw [hfollows]
      rw [continues_eq] at hnot ⊢
      by_cases hflow : flowOf p = flowOf q
      · obtain ⟨hflags, hack, -⟩ := h hflow
        rw [if_pos hflow, if_pos hflags] at hnot ⊢
        by_cases hp : isAck p = true
        · rw [if_pos hp, if_pos (hack hp)] at hnot ⊢
          exact congrArg some (Bool.eq_false_iff.mpr fun htrue => hnot (congrArg some htrue))
        · rw [if_neg hp]
      · rw [if_neg hflow]
  · intro h hflow
    refine ⟨?_, fun hack => ?_, fun hfollows => ?_⟩
    · rw [continues_eq, if_pos hflow] at h
      by_contra hflags
      rw [if_neg hflags] at h
      exact absurd h (by simp)
    · rw [continues_eq, if_pos hflow, if_pos (isFlags_of_isAck hack), if_pos hack] at h
      by_contra hflags
      rw [if_neg hflags] at h
      exact absurd h (by simp)
    · rw [hfollows] at h
      exact (continues_eq_true.mp h).2

/-- What `addSegment` does to the packets of the interface. -/
def mergeSegment (pkts : List Packet) (p : Packet) : Option (List Packet) :=
  match pkts.getLast? with
  | none => some [p]
  | some lp => (continues lp p).map fun merged =>
    if merged then
      pkts.dropLast ++ [{ lp with payload := some (lp.payload.getD [] ++ p.payload.getD []) }]
    else pkts ++ [p]

theorem mergeSegment_snoc (pkts : List Packet) (lp p : Packet) :
    mergeSegment (pkts ++ [lp]) p = (continues lp p).map fun merged =>
      if merged then
        pkts ++ [{ lp with payload := some (lp.payload.getD [] ++ p.payload.getD []) }]
      else pkts ++ [lp] ++ [p] := by
  simp [mergeSegment]

theorem continues_merged (h : continues lp p = some true) (q : Packet) :
    continues { lp with payload := some (lp.payload.getD [] ++ p.payload.getD []) } q =
      continues p q := by
  obtain ⟨hfollows, hlt⟩ := continues_eq_true.mp h
  simp only [follows, Bool.and_eq_true, beq_iff_eq] at hfollows
  obtain ⟨⟨⟨⟨hflow, hack⟩, hack'⟩, hseq⟩, hackNum⟩ := hfollows
  have hsum : lp.seq.toNat + Payload.size lp.payload = p.seq.toNat := by
    rw [← hseq, BitVec.toNat_add, BitVec.toNat_ofNat, Nat.add_mod_mod, Nat.mod_eq_of_lt hlt]
  have hsize : lp.seq.toNat + Payload.size (some (lp.payload.getD [] ++ p.payload.getD [])) =
      p.seq.toNat + Payload.size p.payload := by
    rw [← hsum]
    simp only [Payload.size, Option.getD_some, List.length_append]
    omega
  have hflow' : flowOf { lp with payload := some (lp.payload.getD [] ++ p.payload.getD []) } =
      flowOf p := hflow
  have hisAck : isAck { lp with payload := some (lp.payload.getD [] ++ p.payload.getD []) } =
      true := hack
  -- what is compared with the next segment is the flow, the end of the data and the acknowledgement
  rw [continues_eq, continues_eq, hflow', hsize, hisAck, hack', hackNum]
  rw [if_pos (isFlags_of_isAck hack), if_pos (isFlags_of_isAck hack')]

theorem Joined.merge {g : List Packet} (h : Joined g lp) (p : Packet) :
    Joined (g ++ [p])
      { lp with payload := some (lp.payload.getD [] ++ p.payload.getD []) } := by
  cases h with
  | single =>
    have hseg := Joined.segments lp p []
    simpa [bytes] using hseg
  | segments q r qs =>
    have hseg := Joined.segments q r (qs ++ [p])
    simpa [bytes] using hseg

theorem foldlM_mergeSegment_snoc {f : Packet → Packet → Bool} {pkts : List Packet} {r : Packet}
    (h : (pkts ++ [r]).IsChain fun p q => continues p q = some (f p q)) :
    ∃ gs g out lp, (pkts ++ [r]).foldlM mergeSegment [] = some (out ++ [lp]) ∧
      Groups f (pkts ++ [r]) (gs ++ [g]) ∧ List.Forall₂ Joined gs out ∧ Joined g lp ∧
      r ∈ g.getLast? ∧ ∀ q, continues lp q = continues r q := by
  induction pkts using List.reverseRecOn generalizing r with
  | nil =>
    refine ⟨[], [r], [], r, rfl, ?_, .nil, .single r, by simp, fun _ => rfl⟩
    exact Groups.nil.snoc (by simp)
  | append_singleton pkts r' ih =>
    obtain ⟨hchain, -, hlast⟩ := List.isChain_append.mp h
    obtain ⟨gs, g, out, lp, hfold, hgroups, hjoined, hg, hr', hcont⟩ := ih hchain
    have hlink := hlast r' (by simp) r (by simp)
    have hmerge := mergeSegment_snoc out lp r
    rw [hcont, hlink] at hmerge
    rw [List.foldlM_append, hfold]
    cases hf : f r' r with
    | true =>
      -- the last packet grows, and with it the last group
      rw [hf] at hmerge hlink
      refine ⟨gs, g ++ [r], out, _, ?_, hgroups.extend hr' hf, hjoined, hg.merge r, by simp,
        fun q => continues_merged ((hcont r).trans hlink) q⟩
      simpa using hmerge
    | false =>
      rw [hf] at hmerge
      refine ⟨gs ++ [g], [r], out ++ [lp], r, ?_, hgroups.snoc ?_, ?_, .single r, by simp,
        fun _ => rfl⟩
      · simpa using hmerge
      · intro a ha
        obtain rfl : r' = a := by simpa using ha
        exact hf
      · exact List.rel_append hjoined (.cons hg .nil)

theorem foldlM_mergeSegment {f : Packet → Packet → Bool} {pkts : List Packet}
    (h : pkts.IsChain fun p q => continues p q = some (f p q)) :
    ∃ gs out, pkts.foldlM mergeSegment [] = some out ∧ Groups f pkts gs ∧
      List.Forall₂ Joined gs out := by
  rcases List.eq_nil_or_concat pkts with rfl | ⟨pkts, r, rfl⟩
  · exact ⟨[], [], rfl, .nil, .nil⟩
  · rw [List.concat_eq_append] at h ⊢
    obtain ⟨gs, g, out, lp, hfold, hgroups, hjoined, hg, -, -⟩ := foldlM_mergeSegment_snoc h
    exact ⟨gs ++ [g], out ++ [lp], hfold, hgroups, List.rel_append hjoined (.cons hg .nil)⟩

theorem isChain_of_foldlM {pkts out : List Packet}
    (h : pkts.foldlM mergeSegment [] = some out) :
    pkts.IsChain fun p q => continues p q = some (continues p q == some true) := by
  induction pkts using List.reverseRecOn generalizing out with
  | nil => exact .nil
  | append_singleton pkts r ih =>
    rw [List.foldlM_append] at h
    obtain ⟨out₁, hfold, hmerge⟩ := Option.bind_eq_some_iff.mp h
    have hchain := ih hfold
    refine List.isChain_append.mpr ⟨hchain, .singleton r, fun p hp q hq => ?_⟩
    obtain rfl : r = q := by simpa using hq
    obtain ⟨pkts, rfl⟩ : ∃ pkts', pkts = pkts' ++ [p] :=
      ⟨pkts.dropLast, (List.dropLast_append_getLast? p hp).symm⟩
    -- the last packet so far is continued by what continues the last segment in it
    obtain ⟨gs, g, out₂, lp, hfold', -, -, -, -, hcont⟩ := foldlM_mergeSegment_snoc hchain
    obtain rfl := Option.some.inj (hfold.symm.trans hfold')
    simp only [List.foldlM_cons, List.foldlM_nil, mergeSegment_snoc, hcont] at hmerge
    cases hc : continues p r with
    | none =>
      rw [hc] at hmerge
      simp at hmerge
    | some merged => cases merged <;> rfl

theorem intf_mergeSegment {pkts out : List Packet} {intf : Option IntfPtr}
    (h : ∀ q ∈ pkts, q.intf = intf) (hp : p.intf = intf) (hout : mergeSegment pkts p = some out) :
    ∀ q ∈ out, q.intf = intf := by
  rcases List.eq_nil_or_concat pkts with rfl | ⟨pkts, lp, rfl⟩
  · obtain rfl := Option.some.inj hout
    simpa using hp
  · rw [List.concat_eq_append] at h hout
    rw [mergeSegment_snoc] at hout
    obtain ⟨merged, -, rfl⟩ := Option.map_eq_some_iff.mp hout
    have hlp := h lp (by simp)
    intro q hq
    split_ifs at hq
    · rcases List.mem_append.mp hq with hq | hq
      · exact h q (List.mem_append_left _ hq)
      · rw [List.mem_singleton.mp hq]
        exact hlp
    · rcases List.mem_append.mp hq with hq | hq
      · exact h q hq
      · rw [List.mem_singleton.mp hq]
        exact hp

namespace IntfPkts

def bucket (intf : Option IntfPtr) : IntfPkts → List Packet
  | [] => []
  | (intf', pkts) :: rest => if intf' = intf then pkts else bucket intf rest

structure Filed (l : IntfPkts) : Prop where
  nodup : (l.map Prod.fst).Nodup
  intf : ∀ entry ∈ l, ∀ p ∈ entry.2, p.intf = entry.1

variable {l l' : IntfPkts} {intf : Option IntfPtr}

theorem bucket_eq_nil (h : intf ∉ l.map Prod.fst) : bucket intf l = [] := by
  induction l with
  | nil => rfl
  | cons entry l ih =>
    rw [List.map_cons, List.mem_cons, not_or] at h
    rw [bucket, if_neg (Ne.symm h.1)]
    exact ih h.2

theorem bucket_of_mem {pkts : List Packet} (h : (l.map Prod.fst).Nodup)
    (hmem : (intf, pkts) ∈ l) : bucket intf l = pkts := by
  induction l with
  | nil => simp at hmem
  | cons entry l ih =>
    obtain ⟨hnot, hnodup⟩ := List.nodup_cons.mp h
    rcases List.mem_cons.mp hmem with rfl | hmem
    · exact if_pos rfl
    · have hne : ¬ entry.1 = intf := fun heq => hnot (heq ▸ List.mem_map_of_mem hmem)
      rw [bucket, if_neg hne]
      exact ih hnodup hmem

theorem onIntf_flatMap (h : Filed l) (intf : Option IntfPtr) :
    onIntf intf (l.flatMap Prod.snd) = bucket intf l := by
  obtain ⟨hnodup, hintf⟩ := h
  unfold onIntf
  induction l with
  | nil => rfl
  | cons entry l ih =>
    obtain ⟨hnot, hnodup'⟩ := List.nodup_cons.mp hnodup
    have hrest := ih hnodup' fun e he => hintf e (List.mem_cons_of_mem _ he)
    have hentry := hintf entry (List.mem_cons_self ..)
    rw [List.flatMap_cons, List.filter_append, hrest, bucket]
    split_ifs with heq
    · rw [bucket_eq_nil (heq ▸ hnot), List.append_nil, List.filter_eq_self]
      intro p hp
      exact decide_eq_true ((hentry p hp).trans heq)
    · rw [List.filter_eq_nil_iff.mpr, List.nil_append]
      intro p hp hpi
      exact heq ((hentry p hp).symm.trans (of_decide_eq_true hpi))

theorem bucket_perm (h : (l.map Prod.fst).Nodup) (hperm : l'.Perm l) (intf : Option IntfPtr) :
    bucket intf l' = bucket intf l := by
  have hnodup : (l'.map Prod.fst).Nodup := (hperm.map Prod.fst).nodup_iff.mpr h
  by_cases hmem : intf ∈ l'.map Prod.fst
  · obtain ⟨⟨_, pkts⟩, hentry, rfl⟩ := List.mem_map.mp hmem
    rw [bucket_of_mem hnodup hentry, bucket_of_mem h (hperm.subset hentry)]
  · rw [bucket_eq_nil hmem, bucket_eq_nil fun hl => hmem ((hperm.map Prod.fst).mem_iff.mpr hl)]

theorem Filed.perm (h : Filed l) (hperm : l'.Perm l) : Filed l' :=
  ⟨(hperm.map Prod.fst).nodup_iff.mpr h.nodup, fun entry hentry =>
    h.intf entry (hperm.subset hentry)⟩

theorem filter_flatMap (h : Filed l) (hperm : l'.Perm l) (intf : Option IntfPtr) :
    onIntf intf (l'.flatMap Prod.snd) = bucket intf l := by
  rw [onIntf_flatMap (h.perm hperm), bucket_perm h.nodup hperm]

def setBucket (intf : Option IntfPtr) (pkts : List Packet) : IntfPkts → IntfPkts
  | [] => [(intf, pkts)]
  | (intf', pkts') :: rest =>
    if intf' = intf then (intf', pkts) :: rest else (intf', pkts') :: setBucket intf pkts rest

theorem addSegment_eq (p : Packet) (l : IntfPkts) :
    addSegment p l =
      (mergeSegment (bucket p.intf l) p).map fun pkts => setBucket p.intf pkts l := by
  induction l with
  | nil => rfl
  | cons entry l ih =>
    obtain ⟨intf, pkts⟩ := entry
    by_cases hintf : intf = p.intf
    · simp only [addSegment, bucket, setBucket, if_pos hintf, mergeSegment]
      cases pkts.getLast? with
      | none => rfl
      | some lp =>
        cases hc : continues lp p with
        | none => simp [hc]
        | some merged => cases merged <;> simp [hc]
    · simp only [addSegment, bucket, setBucket, if_neg hintf, ih, Option.map_map]
      rfl

theorem bucket_setBucket (intf intf' : Option IntfPtr) (pkts : List Packet) (l : IntfPkts) :
    bucket intf' (setBucket intf pkts l) = if intf = intf' then pkts else bucket intf' l := by
  induction l with
  | nil => rfl
  | cons entry l ih =>
    obtain ⟨i, ps⟩ := entry
    unfold setBucket
    by_cases hi : i = intf
    · rw [if_pos hi, bucket, bucket, hi]
      split_ifs
      all_goals rfl
    · rw [if_neg hi, bucket, bucket, ih]
      by_cases hi' : i = intf'
      · have hne : ¬ intf = intf' := fun heq => hi (hi'.trans heq.symm)
        rw [if_pos hi', if_neg hne, if_pos hi']
      · rw [if_neg hi', if_neg hi']

theorem mem_setBucket {entry : Option IntfPtr × List Packet} {pkts : List Packet}
    (h : entry ∈ setBucket intf pkts l) : entry = (intf, pkts) ∨ entry ∈ l := by
  induction l with
  | nil => exact .inl (List.mem_singleton.mp h)
  | cons e l ih =>
    obtain ⟨i, ps⟩ := e
    unfold setBucket at h
    split_ifs at h with hi
    · rcases List.mem_cons.mp h with h | h
      · exact .inl (hi ▸ h)
      · exact .inr (List.mem_cons_of_mem _ h)
    · rcases List.mem_cons.mp h with h | h
      · exact .inr (h ▸ List.mem_cons_self ..)
      · exact (ih h).imp_right (List.mem_cons_of_mem _)

theorem nodup_setBucket (intf : Option IntfPtr) (pkts : List Packet)
    (h : (l.map Prod.fst).Nodup) : ((setBucket intf pkts l).map Prod.fst).Nodup := by
  induction l with
  | nil => simp [setBucket]
  | cons e l ih =>
    obtain ⟨i, ps⟩ := e
    obtain ⟨hnot, hnodup⟩ := List.nodup_cons.mp h
    unfold setBucket
    split_ifs with hi
    · exact h
    · refine List.nodup_cons.mpr ⟨fun hmem => ?_, ih hnodup⟩
      obtain ⟨e, he, heq⟩ := List.mem_map.mp hmem
      rcases mem_setBucket he with rfl | he
      · exact hi heq.symm
      · exact hnot (heq ▸ List.mem_map_of_mem he)

theorem Filed.setBucket (h : Filed l) {pkts : List Packet} (hpkts : ∀ p ∈ pkts, p.intf = intf) :
    Filed (setBucket intf pkts l) := by
  refine ⟨nodup_setBucket intf pkts h.nodup, fun entry hentry => ?_⟩
  rcases mem_setBucket hentry with rfl | hentry
  · exact hpkts
  · exact h.intf entry hentry

theorem bucket_mem {p : Packet} (h : p ∈ bucket intf l) : (intf, bucket intf l) ∈ l := by
  induction l with
  | nil => simp [bucket] at h
  | cons e l ih =>
    obtain ⟨i, ps⟩ := e
    by_cases hi : i = intf
    · subst hi
      rw [bucket, if_pos rfl]
      exact List.mem_cons_self ..
    · rw [bucket, if_neg hi] at h ⊢
      exact List.mem_cons_of_mem _ (ih h)

theorem Filed.bucket (h : Filed l) (intf : Option IntfPtr) :
    ∀ p ∈ bucket intf l, p.intf = intf := fun p hp => h.intf _ (bucket_mem hp) p hp

theorem foldlM_addSegment (pkts : List Packet) (h : Filed l) :
    (∀ l', pkts.foldlM (fun l p => addSegment p l) l = some l' → Filed l' ∧
      ∀ intf, (onIntf intf pkts).foldlM mergeSegment
        (IntfPkts.bucket intf l) = some (IntfPkts.bucket intf l')) ∧
    (pkts.foldlM (fun l p => addSegment p l) l = none →
      ∃ intf, (onIntf intf pkts).foldlM mergeSegment
        (IntfPkts.bucket intf l) = none) := by
  induction pkts generalizing l with
  | nil =>
    constructor
    · intro l' hl'
      obtain rfl := Option.some.inj hl'
      exact ⟨h, fun _ => rfl⟩
    · intro hnone
      exact absurd hnone (by simp)
  | cons p pkts ih =>
    have hother : ∀ intf, p.intf ≠ intf → onIntf intf (p :: pkts) = onIntf intf pkts :=
      fun intf hne => List.filter_cons_of_neg (by simpa using hne)
    have hown : onIntf p.intf (p :: pkts) = p :: onIntf p.intf pkts :=
      List.filter_cons_of_pos (by simp)
    rw [List.foldlM_cons, addSegment_eq]
    cases hm : mergeSegment (IntfPkts.bucket p.intf l) p with
    | none =>
      refine ⟨fun l' hl' => by simp at hl', fun _ => ⟨p.intf, ?_⟩⟩
      rw [hown, List.foldlM_cons, hm]
      rfl
    | some out =>
      have hout := intf_mergeSegment (h.bucket p.intf) rfl hm
      obtain ⟨hsome, hnone⟩ := ih (h.setBucket hout)
      simp only [bucket_setBucket] at hsome hnone
      -- a packet is merged into the list of its own interface only
      have hstep : ∀ intf, (onIntf intf (p :: pkts)).foldlM mergeSegment
          (IntfPkts.bucket intf l) = (onIntf intf pkts).foldlM mergeSegment
            (if p.intf = intf then out else IntfPkts.bucket intf l) := by
        intro intf
        by_cases hintf : p.intf = intf
        · subst hintf
          rw [hown, List.foldlM_cons, hm, if_pos rfl]
          rfl
        · rw [hother intf hintf, if_neg hintf]
      refine ⟨fun l' hl' => ?_, fun hnil => ?_⟩
      · obtain ⟨hfiled, hfold⟩ := hsome l' hl'
        exact ⟨hfiled, fun intf => (hstep intf).trans (hfold intf)⟩
      · obtain ⟨intf, hfold⟩ := hnone hnil
        exact ⟨intf, (hstep intf).trans hfold⟩

end IntfPkts

theorem mem_group {g : List Packet} (h : (p :: g).IsChain fun p q => follows p q = true)
    (hq : q ∈ g) : flowOf q = flowOf p ∧ isAck p = true ∧ isAck q = true := by
  induction g generalizing p with
  | nil => simp at hq
  | cons r g ih =>
    obtain ⟨hlink, hchain⟩ := List.isChain_cons_cons.mp h
    simp only [follows, Bool.and_eq_true, beq_iff_eq] at hlink
    obtain ⟨⟨⟨⟨hflow, hp⟩, hr⟩, -⟩, -⟩ := hlink
    rcases List.mem_cons.mp hq with rfl | hq
    · exact ⟨hflow.symm, hp, hr⟩
    · obtain ⟨hflow', -, hack⟩ := ih hchain hq
      exact ⟨hflow'.trans hflow.symm, hp, hack⟩

theorem flowBytes_joined {g : List Packet} (h : Joined g p)
    (hchain : g.IsChain fun p q => follows p q = true)
    (flow : IPv4Address × IPv4Address × BitVec 16 × BitVec 16) :
    flowBytes flow [p] = flowBytes flow g := by
  cases h with
  | single => rfl
  | segments p q qs =>
    have htcp : ∀ r, isAck r = true → r.protoState.isTcp = true := by
      intro r hr
      simp only [ProtoState.isTcp, isFlags_of_isAck hr, Bool.or_true]
    have hall : ∀ r ∈ p :: q :: qs, flowOf r = flowOf p ∧ r.protoState.isTcp = true := by
      intro r hr
      rcases List.mem_cons.mp hr with rfl | hr
      · exact ⟨rfl, htcp r (mem_group hchain (List.mem_cons_self ..)).2.1⟩
      · obtain ⟨hflow, -, hack⟩ := mem_group hchain hr
        exact ⟨hflow, htcp r hack⟩
    have hp := (hall p (List.mem_cons_self ..)).2
    have hflow' : flowOf { p with payload := some (bytes (p :: q :: qs)) } = flowOf p := rfl
    unfold flowBytes
    by_cases hflow : flowOf p = flow
    · rw [List.filter_eq_self.mpr, List.filter_eq_self.mpr]
      · simp [bytes]
      · intro r hr
        simp [(hall r hr).1, (hall r hr).2, hflow]
      · intro r hr
        rw [List.mem_singleton.mp hr, hflow']
        simpa [hp] using hflow
    · rw [List.filter_eq_nil_iff.mpr, List.filter_eq_nil_iff.mpr]
      · intro r hr
        simp [(hall r hr).1, hflow]
      · intro r hr
        rw [List.mem_singleton.mp hr, hflow']
        simpa [hp] using hflow

theorem flowBytes_append (flow : IPv4Address × IPv4Address × BitVec 16 × BitVec 16)
    (ps qs : List Packet) :
    flowBytes flow (ps ++ qs) = flowBytes flow ps ++ flowBytes flow qs := by
  simp [flowBytes, bytes]

theorem Merges.flowBytes {pkts out : List Packet} (h : Merges pkts out)
    (flow : IPv4Address × IPv4Address × BitVec 16 × BitVec 16) :
    flowBytes flow out = flowBytes flow pkts := by
  obtain ⟨gs, hgroups, hjoined⟩ := h
  rw [← hgroups.flatten]
  have hlinked := hgroups.linked
  clear hgroups
  induction hjoined with
  | nil => rfl
  | @cons g p gs out hg hrest ih =>
    have htail := ih fun k hk => hlinked k (List.mem_cons_of_mem _ hk)
    have hhead := flowBytes_joined hg (hlinked g (List.mem_cons_self ..)) flow
    calc Net.flowBytes flow (p :: out)
      _ = Net.flowBytes flow [p] ++ Net.flowBytes flow out := flowBytes_append flow [p] out
      _ = Net.flowBytes flow g ++ Net.flowBytes flow gs.flatten := by rw [hhead, htail]
      _ = Net.flowBytes flow (g :: gs).flatten := by rw [List.flatten_cons, flowBytes_append]

theorem ne_nil_of_mergeSegment {pkts out : List Packet} (h : mergeSegment pkts p = some out) :
    out ≠ [] := by
  unfold mergeSegment at h
  split at h
  · simp [← Option.some.inj h]
  · obtain ⟨merged, -, rfl⟩ := Option.map_eq_some_iff.mp h
    split_ifs
    all_goals simp

theorem ne_nil_of_foldlM_mergeSegment {pkts out : List Packet} (hne : pkts ≠ [])
    (h : pkts.foldlM mergeSegment [] = some out) : out ≠ [] := by
  obtain ⟨p, pkts, rfl⟩ := List.exists_cons_of_ne_nil hne
  rw [List.foldlM_cons] at h
  obtain ⟨ps, hp, hrest⟩ := Option.bind_eq_some_iff.mp h
  exact foldlM_invariant (· ≠ []) pkts (fun _ _ _ _ _ => ne_nil_of_mergeSegment)
    (ne_nil_of_mergeSegment hp) hrest

theorem merges_iff {pkts out : List Packet} (h : pkts.foldlM mergeSegment [] = some out) :
    Merges pkts out ↔ pkts.IsChain Adjoin := by
  have hchain := isChain_of_foldlM h
  constructor
  · rintro ⟨gs, hgroups, hjoined⟩
    obtain ⟨gs', out', hfold, hgroups', hjoined'⟩ := foldlM_mergeSegment hchain
    obtain rfl := Option.some.inj (h.symm.trans hfold)
    -- both cuts have as many groups, so the two relations link as many packets
    have hlen : gs'.length = gs.length := hjoined'.length_eq.trans hjoined.length_eq.symm
    have hcount := hgroups.length_add_links
    have hcount' := hgroups'.length_add_links
    have hlinks : Groups.links (fun p q => continues p q == some true) pkts =
        Groups.links follows pkts := by
      omega
    have hsame := Groups.isChain_of_links_eq
      (fun p q hpq => (continues_eq_true.mp (beq_iff_eq.mp hpq)).1) hlinks
    refine (Groups.isChain_and hchain hsame).imp fun p q hpq => adjoin_iff.mpr ?_
    rw [hpq.1, hpq.2]
  · intro hadjoin
    obtain ⟨gs, out', hfold, hgroups, hjoined⟩ :=
      foldlM_mergeSegment (hadjoin.imp fun p q hpq => adjoin_iff.mp hpq)
    obtain rfl := Option.some.inj (h.symm.trans hfold)
    exact ⟨gs, hgroups, hjoined⟩

end Net

namespace SendEnv

open Net

variable (env : SendEnv)

/-- Reassembly ends; on each interface it merges what follows the packet before it and nothing
else, and the data of each flow stays the same. -/
def Reassembles (pkts : List Packet) : Prop :=
  ∃ out, env.reassembleSegments pkts = some out ∧
    ∀ intf, Merges (onIntf intf pkts) (onIntf intf out) ∧
      ∀ flow, flowBytes flow (onIntf intf out) = flowBytes flow (onIntf intf pkts)

theorem reassembleSegments_onIntf (pkts : List Packet) :
    (∀ out, env.reassembleSegments pkts = some out →
      ∀ intf, (onIntf intf pkts).foldlM mergeSegment [] = some (onIntf intf out)) ∧
    (env.reassembleSegments pkts = none →
      ∃ intf, (onIntf intf pkts).foldlM mergeSegment [] = none) := by
  have hempty : IntfPkts.Filed [] := ⟨List.nodup_nil, by simp⟩
  obtain ⟨hsome, hnone⟩ := IntfPkts.foldlM_addSegment pkts hempty
  unfold reassembleSegments
  cases hfold : pkts.foldlM (fun intfPkts p => addSegment p intfPkts) [] with
  | none => exact ⟨fun out hout => by simp at hout, fun _ => hnone hfold⟩
  | some l =>
    refine ⟨fun out hout intf => ?_, fun h => by simp at h⟩
    obtain rfl := Option.some.inj hout
    obtain ⟨hfiled, hbucket⟩ := hsome l hfold
    rw [IntfPkts.filter_flatMap hfiled (env.order_perm l)]
    exact hbucket intf

theorem reassembleSegments_eq_nil {pkts out : List Packet}
    (h : env.reassembleSegments pkts = some out) : out = [] ↔ pkts = [] := by
  constructor
  · rintro rfl
    by_contra hne
    obtain ⟨p, pkts, rfl⟩ := List.exists_cons_of_ne_nil hne
    have hfold := (env.reassembleSegments_onIntf (p :: pkts)).1 [] h p.intf
    exact ne_nil_of_foldlM_mergeSegment (by simp [onIntf]) hfold rfl
  · rintro rfl
    rw [← Option.some.inj h, List.perm_nil.mp (env.order_perm [])]
    rfl

/-- Traffic is conserved if and only if any two packets that come one after the other on an
interface adjoin. -/
theorem reassembles_iff (pkts : List Packet) :
    env.Reassembles pkts ↔ ∀ intf, (onIntf intf pkts).IsChain Adjoin := by
  obtain ⟨hsome, hnone⟩ := env.reassembleSegments_onIntf pkts
  constructor
  · rintro ⟨out, hout, hmerges⟩ intf
    exact (merges_iff (hsome out hout intf)).mp (hmerges intf).1
  · intro h
    cases hout : env.reassembleSegments pkts with
    | none =>
      obtain ⟨intf, hintf⟩ := hnone hout
      obtain ⟨gs, out, hfold, -, -⟩ :=
        foldlM_mergeSegment ((h intf).imp fun p q hpq => adjoin_iff.mp hpq)
      exact absurd (hintf.symm.trans hfold) (by simp)
    | some out =>
      refine ⟨out, hout, fun intf => ?_⟩
      have hmerges := (merges_iff (hsome out hout intf)).mpr (h intf)
      exact ⟨hmerges, hmerges.flowBytes⟩

def inOrder : SendEnv where
  libnet := .standard
  hash _ := 0
  order := id
  order_perm := .refl

def oneByte (protoState : ProtoState) (seq : BitVec 32) (byte : BitVec 8) : Packet :=
  { Net.cleared with
    intf := some 1
    srcIp := 0x0A000001#32
    dstIp := 0x0A000002#32
    srcPort := 100
    dstPort := 53
    seq := seq
    protoState := protoState
    payload := some [byte] }

/-- Two datagrams of one flow make the assertion fail. -/
theorem not_reassembles :
    ¬ inOrder.Reassembles [oneByte psUdpReq 0 1, oneByte psUdpReq 0 2] := by
  rintro ⟨out, hout, -⟩
  have hnone : inOrder.reassembleSegments [oneByte psUdpReq 0 1, oneByte psUdpReq 0 2] = none := by
    decide
  rw [hnone] at hout
  exact absurd hout (by simp)

end SendEnv

end Neo
