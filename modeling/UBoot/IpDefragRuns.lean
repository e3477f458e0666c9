import UBoot.IpDefragAccept

/-!
# Reassembly under hostile input

A run passes any sequence of packets to `__net_defragment`.  Beside the static
variables it records which bytes of the payload have been copied from fragments
since the datagram began, and whether a datagram is in progress.  The hole list
stays intact in every run that avoids three situations: a fragment with the
identification of a completed datagram, a last fragment that reaches the hole
after the one it is taken into, and a hole that would begin in the last eight
bytes of the buffer.
-/

namespace UBoot

open Option List DefragState

/-- The static variables of `__net_defragment`, the bytes of the payload that
were copied from fragments, and whether a datagram is in progress. -/
structure Reassembly where
  state : DefragState
  received : Nat → Bool
  active : Bool

def Reassembly.boot (pktBuff : Memory) (firstHole : Nat) : Reassembly :=
  ⟨⟨pktBuff, firstHole, 0⟩, fun _ => false, false⟩

/-- One call of `__net_defragment`. -/
def Reassembly.step (config : DefragConfig) (r : Reassembly) (ip : Memory) : Option Reassembly :=
  (netDefragment config r.state ip).map fun call =>
    { state := call.state
      received := fun x =>
        r.received x && !decide (ip.Admissible config ∧ r.state.StartsOver ip) ||
          decide (call.copied.1 ≤ x ∧ x < call.copied.1 + call.copied.2)
      active := if ip.Admissible config then call.lenp.isNone else r.active }

def Reassembly.run (config : DefragConfig) (r : Reassembly) (packets : List Memory) :
    Option Reassembly :=
  packets.foldlM (Reassembly.step config) r

/-- The list of hole descriptors from `first_hole` on is finite, linked both ways
and increasing; every descriptor lies inside the buffer, its hole has only bytes
that were not received, and its own bytes were not written by a fragment. -/
structure HoleListIntact (config : DefragConfig) (r : Reassembly) (holes : List Nat) :
    Prop where
  starts : holes.head? = some r.state.firstHole
  linked : Segment (r.state.pktBuff.hole · .nextHole) (r.state.pktBuff.hole · .prevHole)
    0 holes 0
  increasing : holes.Pairwise fun i j => i < j ∧ r.state.pktBuff.hole i .lastByte ≤ 8 * j
  inside : ∀ i ∈ holes, holeAddr i + 8 ≤ config.netMaxdefrag
  unreceived : ∀ i ∈ holes, ∀ x, 8 * i ≤ x → x < r.state.pktBuff.hole i .lastByte → ¬r.received x
  untouched : ∀ i ∈ holes, ∀ x, 8 * i ≤ x → x < 8 * i + 8 → ¬r.received x

/-- The packet avoids the three situations: it does not belong to a completed
datagram; as a last fragment it ends before the hole after the one it is taken
into; and a hole that begins behind it has room for its descriptor. -/
def Reassembly.StepSafe (config : DefragConfig) (r : Reassembly) (ip : Memory) : Prop :=
  ip.Admissible config → let state := r.state.begin ip
    (¬r.state.StartsOver ip → r.active = true) ∧
      ∀ h ∈ (findHole state.pktBuff ip.fragStart (2 ^ 16) state.firstHole).join,
        h < ip.offset8 + (ip.fragLen + 7) / 8 →
        if ip.moreFragments then
          ip.fragStart + ip.fragLen < state.pktBuff.hole h .lastByte →
            ip.fragStart + ip.fragLen + 8 ≤ config.ipMaxudp
        else
          state.pktBuff.hole h .nextHole = 0 ∨
            ip.fragStart + ip.fragLen ≤ 8 * state.pktBuff.hole h .nextHole

def Reassembly.RunSafe (config : DefragConfig) : Reassembly → List Memory → Prop
  | _, [] => True
  | r, ip :: rest => r.StepSafe config ip ∧ ∀ next ∈ r.step config ip, RunSafe config next rest

instance (config : DefragConfig) (r : Reassembly) (ip : Memory) :
    Decidable (r.StepSafe config ip) := by
  unfold Reassembly.StepSafe
  infer_instance

instance decidableRunSafe (config : DefragConfig) :
    (r : Reassembly) → (packets : List Memory) → Decidable (r.RunSafe config packets)
  | _, [] => .isTrue trivial
  | r, ip :: rest =>
    have (next : Reassembly) : Decidable (next.RunSafe config rest) :=
      decidableRunSafe config next rest
    inferInstanceAs (Decidable (r.StepSafe config ip ∧
      ∀ next ∈ r.step config ip, Reassembly.RunSafe config next rest))

section Runs

variable {config : DefragConfig} {r : Reassembly} {ip : Memory}

theorem reset_chain (state : DefragState) (ip : Memory) :
    HoleChain (state.reset ip).pktBuff 0 [⟨0, 65535⟩] := by
  have fields : ∀ field, (state.reset ip).pktBuff.hole 0 field =
      if field = .lastByte then 65535 else 0 := by
    intro field
    unfold reset
    rw [hole_write (Or.inr (by rw [Memory.length_read]; decide))]
    cases field <;> simp [hole_setHole]
  refine ⟨rfl, ⟨fields .prevHole, fields .nextHole, trivial⟩, ?_⟩
  intro a isFirst
  rw [mem_singleton.1 isFirst]
  exact fields .lastByte

theorem reset_spans (config : DefragConfig) : HoleSpans config [⟨0, 65535⟩] where
  apart := pairwise_singleton _ _
  long := by simp
  aligned := by simp
  inside := by
    have lower := config.lower
    simp only [mem_singleton, forall_eq, holeAddr, IP_HDR_SIZE]
    omega

/-- While a datagram is in progress, the memory holds a list of holes and no byte
of a hole was received. -/
def Reassembly.Inv (config : DefragConfig) (r : Reassembly) : Prop :=
  r.active = true → ∃ spans, HoleSpans config spans ∧
    HoleChain r.state.pktBuff r.state.firstHole spans ∧ ∀ x, Missing spans x → ¬r.received x

theorem begin_chain (inv : r.Inv config) (inProgress : ¬r.state.StartsOver ip → r.active = true) :
    ∃ spans, HoleSpans config spans ∧
      HoleChain (r.state.begin ip).pktBuff (r.state.begin ip).firstHole spans ∧
      ∀ x, Missing spans x → ¬(r.received x ∧ ¬r.state.StartsOver ip) := by
  unfold begin
  split
  next startsOver =>
    refine ⟨[⟨0, 65535⟩], reset_spans config, reset_chain _ _, ?_⟩
    intro x _
    simp [startsOver]
  next continues =>
    obtain ⟨spans, holes, chain, unreceived⟩ := inv (inProgress continues)
    refine ⟨spans, holes, chain, ?_⟩
    intro x missing received
    exact unreceived x missing received.1

/-- What a call does to a list of holes: it drops the packet when all holes end
before the fragment or the first one that does not begins behind it, and takes
the fragment into that hole otherwise. -/
theorem netDefragment_cases {state : DefragState} {spans : List HoleSpan}
    (admissible : ip.Admissible config) (holes : HoleSpans config spans)
    (chain : HoleChain (state.begin ip).pktBuff (state.begin ip).firstHole spans) :
    (∀ a ∈ spans, a.last < ip.fragStart) ∧
        netDefragment config state ip = some (state.begin ip).drop ∨
      ∃ pre hole post, spans = pre ++ hole :: post ∧ (∀ a ∈ pre, a.last < ip.fragStart) ∧
        ip.fragStart ≤ hole.last ∧
        findHole (state.begin ip).pktBuff ip.fragStart (2 ^ 16) (state.begin ip).firstHole =
          some (some hole.index) ∧
        netDefragment config state ip =
          some (if ip.offset8 + (ip.fragLen + 7) / 8 ≤ hole.index then (state.begin ip).drop
            else (state.begin ip).accept ip hole.index) := by
  have walk := chain.findHole_eq holes ip.fragStart
  unfold netDefragment
  rw [if_pos admissible]
  simp only [walk]
  cases found : spans.find? fun a => ip.fragStart ≤ a.last with
  | none =>
    left
    refine ⟨?_, rfl⟩
    simpa using found
  | some hole =>
    right
    obtain ⟨reaches, pre, post, split, before⟩ := find?_eq_some_iff_append.1 found
    refine ⟨pre, hole, post, split, ?_, by simpa using reaches, rfl, ?_⟩
    · intro a inPre
      simpa using before a inPre
    · simp only [map_some]
      split <;> rfl

theorem Reassembly.step_eq_of_admissible {call : DefragCall} (admissible : ip.Admissible config)
    (called : netDefragment config r.state ip = some call) :
    r.step config ip = some
      { state := call.state
        received := fun x => r.received x && !decide (r.state.StartsOver ip) ||
          decide (call.copied.1 ≤ x ∧ x < call.copied.1 + call.copied.2)
        active := call.lenp.isNone } := by simp [Reassembly.step, called, admissible]

theorem Reassembly.step_eq_of_inadmissible (inadmissible : ¬ip.Admissible config) :
    r.step config ip = some r := by
  simp [Reassembly.step, netDefragment, inadmissible, DefragState.drop]

theorem Reassembly.step_inv (safe : r.StepSafe config ip) (inv : r.Inv config) :
    ∃ next, r.step config ip = some next ∧ next.Inv config := by
  by_cases admissible : ip.Admissible config
  · obtain ⟨inProgress, harmless⟩ := safe admissible
    obtain ⟨spans, holes, chain, unreceived⟩ := begin_chain inv inProgress
    have dropped : netDefragment config r.state ip = some (r.state.begin ip).drop →
        ∃ next, r.step config ip = some next ∧ next.Inv config := by
      intro called
      refine ⟨_, step_eq_of_admissible admissible called, ?_⟩
      intro _
      refine ⟨spans, holes, chain, ?_⟩
      intro x missing received
      apply unreceived x missing
      simpa [DefragState.drop] using received
    rcases netDefragment_cases admissible holes chain with ⟨-, called⟩ |
      ⟨pre, hole, post, rfl, before, reaches, found, called⟩
    · exact dropped called
    by_cases beyond : ip.offset8 + (ip.fragLen + 7) / 8 ≤ hole.index
    · rw [if_pos beyond] at called
      exact dropped called
    rw [if_neg beyond] at called
    have place := chain.placed holes.pairwise_index
    have harmlessHere := harmless hole.index (by rw [found]; rfl) (by omega)
    have overlap : Overlap config ip pre hole post := by
      refine ⟨admissible, before, reaches, by omega, ?_, ?_⟩
      · intro last b inPost
        rw [last, if_neg (by simp)] at harmlessHere
        rw [place.nextNil, place.nextEq] at harmlessHere
        rcases harmlessHere with rfl | clear
        · simp at inPost
        · have := place.head_le inPost
          omega
      · intro more goesOn
        rw [if_pos more, chain.lasts hole (by simp)] at harmlessHere
        exact harmlessHere goesOn
    refine ⟨_, step_eq_of_admissible admissible called, ?_⟩
    obtain ⟨copied, finished, left⟩ := overlap.accept holes chain
    intro active
    have some : fixedSpans ip pre hole post ≠ [] := by
      intro none
      rw [finished none] at active
      simp at active
    refine ⟨_, overlap.fixed holes, (left some).2, ?_⟩
    rw [copied]
    intro x missing received
    obtain ⟨wasMissing, notCopied, -⟩ := overlap.missing_fixed holes missing
    apply unreceived x wasMissing
    simpa [notCopied] using received
  · exact ⟨r, step_eq_of_inadmissible admissible, inv⟩

theorem Reassembly.Inv.intact (inv : r.Inv config) (active : r.active = true) :
    ∃ holes, HoleListIntact config r holes := by
  obtain ⟨spans, holes, chain, unreceived⟩ := inv active
  have atSpan : ∀ i ∈ spans.map HoleSpan.index, ∃ a ∈ spans, a.index = i ∧
      r.state.pktBuff.hole i .lastByte = a.last := by
    intro i inMap
    obtain ⟨a, inSpans, rfl⟩ := mem_map.1 inMap
    exact ⟨a, inSpans, rfl, chain.lasts a inSpans⟩
  refine ⟨spans.map HoleSpan.index, chain.starts, chain.linked, ?_, ?_, ?_, ?_⟩
  · apply pairwise_map.2
    apply List.Pairwise.imp_of_mem _ holes.apart
    intro a b inA _ apart
    have long := holes.long a inA
    rw [chain.lasts a inA]
    omega
  · intro i inMap
    obtain ⟨a, inSpans, rfl, -⟩ := atSpan i inMap
    exact holes.inside a inSpans
  · intro i inMap x lower upper
    obtain ⟨a, inSpans, rfl, last⟩ := atSpan i inMap
    exact unreceived x ⟨a, inSpans, lower, last ▸ upper⟩
  · intro i inMap x lower upper
    obtain ⟨a, inSpans, rfl, -⟩ := atSpan i inMap
    have long := holes.long a inSpans
    exact unreceived x ⟨a, inSpans, lower, by omega⟩

theorem Reassembly.run_inv {packets : List Memory} (safe : r.RunSafe config packets)
    (inv : r.Inv config) : ∃ final, r.run config packets = some final ∧ final.Inv config := by
  induction packets generalizing r with
  | nil => exact ⟨r, rfl, inv⟩
  | cons ip rest ih =>
    obtain ⟨next, stepped, nextInv⟩ := step_inv safe.1 inv
    obtain ⟨final, ran, finalInv⟩ := ih (safe.2 next stepped) nextInv
    refine ⟨final, ?_, finalInv⟩
    unfold Reassembly.run at ran ⊢
    rw [foldlM_cons, stepped]
    exact ran

theorem Reassembly.RunSafe.append_left {before after : List Memory}
    (safe : r.RunSafe config (before ++ after)) : r.RunSafe config before := by
  induction before generalizing r with
  | nil => trivial
  | cons ip rest ih => exact ⟨safe.1, fun next stepped => ih (safe.2 next stepped)⟩

/-- In a run of safe packets every call returns, and after each call that leaves a
datagram in progress the list of holes is intact. -/
theorem holeList_intact_of_runSafe (config : DefragConfig) (pktBuff : Memory)
    (firstHole : Nat) (before after : List Memory)
    (safe : (Reassembly.boot pktBuff firstHole).RunSafe config (before ++ after)) :
    ∃ r, (Reassembly.boot pktBuff firstHole).run config before = some r ∧
      (r.active = true → ∃ holes, HoleListIntact config r holes) := by
  have bootInv : (Reassembly.boot pktBuff firstHole).Inv config := by
    intro active
    simp [Reassembly.boot] at active
  obtain ⟨r, ran, inv⟩ := Reassembly.run_inv safe.append_left bootInv
  exact ⟨r, ran, inv.intact⟩

def ipFragment (id offset8 : Nat) (more : Bool) (data : List UInt8) : Memory :=
  let header : Memory := Memory.writeBE (fun _ => 0) 2 2 (IP_HDR_SIZE + data.length)
  let header := header.writeBE 4 2 id
  let header := header.writeBE 6 2 (offset8 + if more then IP_FLAGS_MFRAG else 0)
  header.write IP_HDR_SIZE data

def DefragConfig.default : DefragConfig := ⟨16384, by decide, by decide⟩

theorem HoleListIntact.firstHole_mem {holes : List Nat}
    (intact : HoleListIntact config r holes) : r.state.firstHole ∈ holes :=
  mem_of_mem_head? intact.starts

theorem HoleListIntact.nextHole_mem {holes : List Nat} {i : Nat}
    (intact : HoleListIntact config r holes) (listed : i ∈ holes)
    (linkedOn : r.state.pktBuff.hole i .nextHole ≠ 0) :
    r.state.pktBuff.hole i .nextHole ∈ holes :=
  (intact.linked.next_mem listed).resolve_left linkedOn

theorem exists_run {Values : Type} {ran : Option Reassembly} {v : Values} {P : Reassembly → Prop}
    (values : Reassembly → Values) (evaluated : ran.map values = some v)
    (holds : ∀ r, values r = v → P r) : ∃ r, ran = some r ∧ P r := by
  obtain ⟨r, isRun, same⟩ := map_eq_some_iff.1 evaluated
  exact ⟨r, isRun, holds r same⟩

/-- A datagram in progress after its second fragment. -/
theorem holeList_intact_second_fragment : ∃ r, (Reassembly.boot (fun _ => 0) 0).run .default
        [ipFragment 1 1 true (replicate 8 7)] = some r ∧
      (r.active = true → ∃ holes, HoleListIntact .default r holes) :=
  holeList_intact_of_runSafe .default (fun _ => 0) 0
    [ipFragment 1 1 true (replicate 8 7)] [ipFragment 1 0 true (replicate 8 7)]
    (by decide)

/-- The hole list is not intact after a fragment that ends in the last eight bytes
of the buffer, after a last fragment that reaches the second hole, and after a
fragment with the identification of a completed datagram. -/
theorem exists_run_holeList_not_intact : (∃ r, (Reassembly.boot (fun _ => 0) 0).run .default
        [ipFragment 1 2044 true (replicate 8 7)] = some r ∧
      r.active = true ∧ ¬∃ holes, HoleListIntact .default r holes) ∧
    (∃ r, (Reassembly.boot (fun _ => 0) 0).run .default
        [ipFragment 1 1 true (replicate 8 7), ipFragment 1 1 false (replicate 16 7)] = some r ∧
      r.active = true ∧ ¬∃ holes, HoleListIntact .default r holes) ∧
    ∃ r, (Reassembly.boot (fun _ => 0) 0).run .default
        [ipFragment 1 0 false (replicate 8 0), ipFragment 1 1 true (replicate 8 7)] = some r ∧
      r.active = true ∧ ¬∃ holes, HoleListIntact .default r holes := by
  refine ⟨?_, ?_, ?_⟩
  · refine exists_run (fun r => (r.active, r.state.firstHole, r.state.pktBuff.hole 0 .nextHole))
      (v := (true, 0, 2045)) (by decide) fun r values => ?_
    obtain ⟨active, first, next⟩ := by simpa only [Prod.mk.injEq] using values
    refine ⟨active, ?_⟩
    rintro ⟨holes, intact⟩
    have second := intact.nextHole_mem (first ▸ intact.firstHole_mem) (by simp [next])
    rw [next] at second
    exact absurd (intact.inside 2045 second) (by decide)
  · refine exists_run (fun r => (r.active, r.state.firstHole, r.state.pktBuff.hole 0 .nextHole,
      r.received 16)) (v := (true, 0, 2, true)) (by decide) fun r values => ?_
    obtain ⟨active, first, next, received⟩ := by simpa only [Prod.mk.injEq] using values
    refine ⟨active, ?_⟩
    rintro ⟨holes, intact⟩
    have second := intact.nextHole_mem (first ▸ intact.firstHole_mem) (by simp [next])
    rw [next] at second
    exact intact.untouched 2 second 16 (by decide) (by decide) received
  · refine exists_run (fun r => (r.active, r.state.firstHole, r.received 0)) (v := (true, 0, true))
      (by decide) fun r values => ?_
    obtain ⟨active, first, received⟩ := by simpa only [Prod.mk.injEq] using values
    refine ⟨active, ?_⟩
    rintro ⟨holes, intact⟩
    exact intact.untouched 0 (first ▸ intact.firstHole_mem) 0 (by decide) (by decide) received

end Runs

end UBoot
