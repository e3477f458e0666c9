import Mathlib.Data.List.Perm.Basic

/-!
# Lists of labelled address spans

A memory map stores its knowledge as a list of half-open spans, each carrying
a label.  This file interprets such a list as a partial function from
addresses to labels and collects the facts that insertion, splitting, merging
and sorting need, independently of the record type that stores the spans.
-/

namespace UBoot

open List Option

structure SpanView (Record Label : Type*) where
  lo : Record → Nat
  hi : Record → Nat
  label : Record → Label

namespace SpanView

variable {Record Label : Type*} (view : SpanView Record Label)

def Covers (record : Record) (address : Nat) : Prop :=
  view.lo record ≤ address ∧ address < view.hi record

instance (record : Record) (address : Nat) : Decidable (view.Covers record address) :=
  inferInstanceAs (Decidable (_ ∧ _))

def labelAt (records : List Record) (address : Nat) : Option Label :=
  records.findSome? fun record =>
    if view.Covers record address then some (view.label record) else none

def Ascending (records : List Record) : Prop :=
  records.Pairwise fun first second => view.hi first ≤ view.lo second

def Apart (records : List Record) : Prop :=
  records.Pairwise fun first second =>
    view.hi first ≤ view.lo second ∨ view.hi second ≤ view.lo first

@[simp]
theorem labelAt_nil (address : Nat) : view.labelAt [] address = none := rfl

theorem labelAt_append (first second : List Record) (address : Nat) :
    view.labelAt (first ++ second) address =
      (view.labelAt first address).or (view.labelAt second address) := by
  simp [labelAt, List.findSome?_append]

theorem labelAt_cons (record : Record) (records : List Record) (address : Nat) :
    view.labelAt (record :: records) address =
      if view.Covers record address then some (view.label record)
      else view.labelAt records address := by
  simp only [labelAt, List.findSome?_cons]
  split_ifs <;> rfl

variable {view} {record : Record}

theorem labelAt_cons_of_covers {address : Nat}
    (covers : view.Covers record address) (records : List Record) :
    view.labelAt (record :: records) address = some (view.label record) := by
  rw [labelAt_cons, if_pos covers]

theorem labelAt_cons_of_not_covers {address : Nat}
    (outside : ¬ view.Covers record address) (records : List Record) :
    view.labelAt (record :: records) address = view.labelAt records address := by
  rw [labelAt_cons, if_neg outside]

section Records

variable {records : List Record} {address : Nat}

theorem labelAt_eq_none_iff :
    view.labelAt records address = none ↔ ∀ record ∈ records, ¬ view.Covers record address := by
  simp [labelAt]

theorem exists_of_labelAt_eq_some {label : Label}
    (found : view.labelAt records address = some label) :
    ∃ record ∈ records, view.Covers record address ∧ view.label record = label := by
  obtain ⟨record, recordMem, selected⟩ := exists_of_findSome?_eq_some found
  split_ifs at selected with covers
  · exact ⟨record, recordMem, covers, some.inj selected⟩

theorem Ascending.exists_split (ascending : view.Ascending records)
    (nonempty : ∀ record ∈ records, view.lo record < view.hi record) (bound : Nat) :
    ∃ below above, records = below ++ above ∧ (∀ record ∈ below, view.lo record < bound) ∧
      ∀ record ∈ above, bound ≤ view.lo record := by
  induction records with
  | nil => exact ⟨[], [], rfl, by simp, by simp⟩
  | cons first rest ih =>
    obtain ⟨firstBefore, restAscending⟩ := pairwise_cons.1 ascending
    by_cases low : view.lo first < bound
    · obtain ⟨below, above, rfl, belowLow, aboveHigh⟩ := ih restAscending
        (fun record recordMem => nonempty record (mem_cons_of_mem _ recordMem))
      refine ⟨first :: below, above, rfl, ?_, aboveHigh⟩
      intro record recordMem
      rcases mem_cons.1 recordMem with rfl | inBelow
      · exact low
      · exact belowLow record inBelow
    refine ⟨[], first :: rest, rfl, by simp, ?_⟩
    intro record recordMem
    rcases mem_cons.1 recordMem with rfl | inRest
    · omega
    · have firstNonempty := nonempty first mem_cons_self
      have ordered := firstBefore record inRest
      omega

theorem Ascending.apart (ascending : view.Ascending records) : view.Apart records :=
  ascending.imp Or.inl

theorem Apart.labelAt_of_mem (apart : view.Apart records) {record : Record}
    (recordMem : record ∈ records) (covers : view.Covers record address) :
    view.labelAt records address = some (view.label record) := by
  induction records with
  | nil => simp at recordMem
  | cons first rest ih =>
    obtain ⟨firstApart, restApart⟩ := pairwise_cons.1 apart
    rcases mem_cons.1 recordMem with rfl | inRest
    · exact labelAt_cons_of_covers covers rest
    have outside : ¬ view.Covers first address := by
      rintro ⟨low, high⟩
      obtain ⟨low', high'⟩ := covers
      rcases firstApart record inRest with before | after <;> omega
    rw [labelAt_cons_of_not_covers outside]
    exact ih restApart inRest

theorem Apart.labelAt_eq_some_iff (apart : view.Apart records) {label : Label} :
    view.labelAt records address = some label ↔ ∃ record ∈ records, view.Covers record address ∧
        view.label record = label := by
  constructor
  · exact exists_of_labelAt_eq_some
  · rintro ⟨record, recordMem, covers, rfl⟩
    exact apart.labelAt_of_mem recordMem covers

end Records

theorem Apart.perm {first second : List Record}
    (apart : view.Apart first) (permuted : first.Perm second) :
    view.Apart second :=
  List.Pairwise.perm apart permuted Or.symm

theorem Apart.labelAt_perm {first second : List Record}
    (apart : view.Apart first) (permuted : first.Perm second) (address : Nat) :
    view.labelAt second address = view.labelAt first address := by
  ext label
  rw [apart.labelAt_eq_some_iff, (apart.perm permuted).labelAt_eq_some_iff]
  simp only [permuted.mem_iff]

variable {after before : List Record}

theorem Apart.of_append_cons (apart : view.Apart (before ++ record :: after)) :
    ∀ other ∈ before ++ after, view.hi other ≤ view.lo record ∨ view.hi record ≤ view.lo other := by
  obtain ⟨-, fromRecord, across⟩ := pairwise_append.1 apart
  intro other otherMem
  rcases mem_append.1 otherMem with inBefore | inAfter
  · exact across other inBefore record mem_cons_self
  · exact ((pairwise_cons.1 fromRecord).1 other inAfter).symm

theorem Apart.labelAt_replace
    (pieces : List Record) (apart : view.Apart (before ++ record :: after))
    (inside : ∀ piece ∈ pieces, view.lo record ≤ view.lo piece ∧ view.hi piece ≤ view.hi record)
    (address : Nat) :
    view.labelAt (before ++ (pieces ++ after)) address =
      if view.Covers record address then view.labelAt pieces address
      else view.labelAt (before ++ record :: after) address := by
  have others := apart.of_append_cons
  simp only [labelAt_append]
  split_ifs with covers
  · have hidden : ∀ other ∈ before ++ after, ¬ view.Covers other address := by
      rintro other otherMem ⟨low, high⟩
      obtain ⟨low', high'⟩ := covers
      rcases others other otherMem with below | above <;> omega
    have notBefore : view.labelAt before address = none :=
      labelAt_eq_none_iff.2 fun other otherMem =>
        hidden other (mem_append_left _ otherMem)
    have notAfter : view.labelAt after address = none :=
      labelAt_eq_none_iff.2 fun other otherMem =>
        hidden other (mem_append_right _ otherMem)
    rw [notBefore, notAfter, none_or, or_none]
  · have notPieces : view.labelAt pieces address = none := by
      rw [labelAt_eq_none_iff]
      rintro piece pieceMem ⟨low, high⟩
      obtain ⟨lower, upper⟩ := inside piece pieceMem
      exact covers ⟨by omega, by omega⟩
    rw [notPieces, none_or, labelAt_cons_of_not_covers covers]

def Descending (view : SpanView Record Label) (records : List Record) : Prop :=
  records.Pairwise fun first second => view.hi second ≤ view.lo first

theorem Descending.apart {records : List Record}
    (descending : view.Descending records) : view.Apart records :=
  descending.imp Or.inr

theorem Descending.replace {pieces : List Record}
    (descending : view.Descending (before ++ record :: after))
    (inside : ∀ piece ∈ pieces, view.lo record ≤ view.lo piece ∧ view.hi piece ≤ view.hi record)
    (piecesDescending : view.Descending pieces) :
    view.Descending (before ++ (pieces ++ after)) := by
  obtain ⟨beforeDescending, fromRecord, across⟩ := pairwise_append.1 descending
  obtain ⟨belowRecord, afterDescending⟩ := pairwise_cons.1 fromRecord
  refine pairwise_append.2 ⟨beforeDescending,
    pairwise_append.2 ⟨piecesDescending, afterDescending, ?_⟩, ?_⟩
  · intro piece pieceMem other otherMem
    exact Nat.le_trans (belowRecord other otherMem) (inside piece pieceMem).1
  intro other otherMem next nextMem
  rcases mem_append.1 nextMem with inPieces | inAfter
  · exact Nat.le_trans (inside next inPieces).2 (across other otherMem record mem_cons_self)
  · exact across other otherMem next (mem_cons_of_mem _ inAfter)

structure Normal (view : SpanView Record Label) (records : List Record) : Prop where
  ascending : view.Ascending records
  nonempty : ∀ record ∈ records, view.lo record < view.hi record
  separate : records.Pairwise fun first second =>
    view.label first = view.label second → view.hi first ≠ view.lo second

section Normal

variable {r s : Record} {rs ss first second : List Record}

theorem Normal.head_le (normal : view.Normal (r :: rs)) (normal' : view.Normal (s :: ss))
    (same : ∀ address, view.labelAt (r :: rs) address = view.labelAt (s :: ss) address) :
    view.lo s ≤ view.lo r ∧
      (view.lo s = view.lo r → view.label s = view.label r ∧ view.hi s ≤ view.hi r) := by
  have starts : view.Covers r (view.lo r) := ⟨Nat.le_refl _, normal.nonempty r mem_cons_self⟩
  have starts' : view.Covers s (view.lo s) := ⟨Nat.le_refl _, normal'.nonempty s mem_cons_self⟩
  have atStart := same (view.lo r)
  rw [labelAt_cons_of_covers starts] at atStart
  refine ⟨?_, fun begins => ?_⟩
  · obtain ⟨t, tMem, covers, -⟩ := exists_of_labelAt_eq_some atStart.symm
    rcases mem_cons.1 tMem with rfl | inRest
    · exact covers.1
    · exact Nat.le_trans (Nat.le_of_lt starts'.2)
        (Nat.le_trans ((pairwise_cons.1 normal'.ascending).1 t inRest) covers.1)
  rw [← begins, labelAt_cons_of_covers starts'] at atStart
  have label := (some.inj atStart).symm
  refine ⟨label, ?_⟩
  by_contra longer
  have atEnd := same (view.hi r)
  rw [labelAt_cons_of_covers ⟨begins ▸ Nat.le_of_lt starts.2, Nat.not_le.1 longer⟩] at atEnd
  obtain ⟨t, tMem, ⟨low, high⟩, tLabel⟩ := exists_of_labelAt_eq_some atEnd
  rcases mem_cons.1 tMem with rfl | inRest
  · exact Nat.lt_irrefl _ high
  · exact (pairwise_cons.1 normal.separate).1 t inRest (label.symm.trans tLabel.symm)
      (Nat.le_antisymm ((pairwise_cons.1 normal.ascending).1 t inRest) low)

theorem Normal.tail (normal : view.Normal (r :: rs)) : view.Normal rs :=
  ⟨(pairwise_cons.1 normal.ascending).2, fun t tMem => normal.nonempty t (mem_cons_of_mem _ tMem),
    (pairwise_cons.1 normal.separate).2⟩

end Normal

end SpanView

end UBoot
