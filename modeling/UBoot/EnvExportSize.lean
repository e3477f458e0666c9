import UBoot.EnvRoundTrip
import UBoot.HashTableRuns

/-!
# The size of an export

The first pass of `hexport_r` computes the length of the text and the second pass writes it.
For the separator NUL the first pass counts no escapes, but the second pass still writes a
backslash in front of each backslash of a value.  What is written depends on the variables
only, not on where they are in the table.
-/

namespace UBoot

open List

variable {config : EnvConfig} {hooks : HashHooks} {htab : HsearchData} {sep : UInt8} {flag : Nat}
  {resp : Bool} {size : Nat} {argv : List CString} {result : HexportResult}

/-- The length of the text after the first pass of `hexport_r`. -/
def totlen (config : EnvConfig) (htab : HsearchData) (sep : UInt8) (flag : Nat)
    (argv : List CString) : Nat :=
  ((exportList config htab flag argv).map (exportLength sep)).sum

def backslashes (list : List EnvEntry) : Nat := (list.map fun ep => ep.dataText.count BACKSLASH).sum

/-- The entries that the second pass of `hexport_r` writes. -/
def exportedEntries (config : EnvConfig) (htab : HsearchData) (sep : UInt8) (flag : Nat)
    (argv : List CString) : CString :=
  exportText sep (exportList config htab flag argv)

theorem length_escape_nul {s : CString} (nulFree : 0 ∉ s) :
    (escape 0 s).length = s.length + s.count BACKSLASH := by
  induction s with
  | nil => rfl
  | cons c s ih =>
    rw [mem_cons, not_or] at nulFree
    have notSep : c ≠ 0 := fun isNul => nulFree.1 isNul.symm
    rw [escape_cons, length_append, ih nulFree.2, length_cons, count_cons]
    by_cases escaped : c = BACKSLASH
    · simp [escaped]
      omega
    · simp [escaped, notSep]
      omega

theorem length_exportEntry (sep : UInt8) {ep : EnvEntry} (nulFree : 0 ∉ ep.dataText) :
    (exportEntry sep ep).length =
      exportLength sep ep + if sep = 0 then ep.dataText.count BACKSLASH else 0 := by
  simp only [exportLength, exportEntry, length_append, length_cons, length_nil]
  by_cases isNul : sep = 0
  · subst isNul
    rw [if_pos rfl, if_pos rfl, length_escape_nul nulFree]
    omega
  · rw [if_neg isNul, if_neg isNul, length_escape]
    omega

theorem length_exportEntries {list : List EnvEntry} (nulFree : ∀ ep ∈ list, 0 ∉ ep.dataText) :
    (list.map fun ep => (exportEntry sep ep).length).sum =
      (list.map (exportLength sep)).sum + if sep = 0 then backslashes list else 0 := by
  induction list with
  | nil => simp [backslashes]
  | cons ep list ih =>
    have tail := ih fun other otherMem => nulFree other (mem_cons_of_mem _ otherMem)
    have head := length_exportEntry sep (nulFree ep mem_cons_self)
    simp only [map_cons, sum_cons, backslashes] at tail ⊢
    split_ifs at head tail ⊢ <;> omega

theorem backslashes_eq_zero {list : List EnvEntry} :
    backslashes list = 0 ↔ ∀ ep ∈ list, BACKSLASH ∉ ep.dataText := by
  simp [backslashes, sum_eq_zero_iff, count_eq_zero]

/-- An export stays within the size exactly if its separator is not NUL, no value has a
backslash, or the buffer of the caller has room for one more byte per backslash; and the first
pass counts the bytes of the second one exactly if one of the first two holds. -/
theorem hexportR_accounted_iff (nulFree : ∀ ep ∈ exportList config htab flag argv, 0 ∉ ep.dataText)
    (exported : hexportR config hooks htab sep flag resp size argv = .ok result) :
    ((exportedEntries config htab sep flag argv ++ [0]).length ≤ result.size ↔
      sep ≠ 0 ∨ (∀ ep ∈ exportList config htab flag argv, BACKSLASH ∉ ep.dataText) ∨
        totlen config htab sep flag argv + 1 + backslashes (exportList config htab flag argv) ≤
          size) ∧
    (totlen config htab sep flag argv = (exportedEntries config htab sep flag argv).length ↔
      sep ≠ 0 ∨ ∀ ep ∈ exportList config htab flag argv, BACKSLASH ∉ ep.dataText) := by
  have sizes : (size = 0 → result.size = totlen config htab sep flag argv + 1) ∧
      (size ≠ 0 → result.size = size ∧ totlen config htab sep flag argv < size) :=
    (hexportR_ok exported).1
  have written : (exportedEntries config htab sep flag argv).length =
      totlen config htab sep flag argv +
        if sep = 0 then backslashes (exportList config htab flag argv) else 0 := by
    rw [exportedEntries, length_exportText, length_exportEntries nulFree, totlen]
  rw [← backslashes_eq_zero, length_append, length_singleton, written]
  by_cases isNul : sep = 0
  · simp only [isNul, if_true, ne_eq, not_true_eq_false, false_or] at *
    omega
  · simp only [isNul, if_false, ne_eq, not_false_eq_true, true_or, iff_true] at *
    omega

def oneEntry (key data : CString) : HsearchData :=
  ⟨[⟨USED_FREE, ⟨none, none⟩⟩, ⟨1, ⟨some key, some data⟩⟩], 1, 1⟩

/-- The entry `a=\` in lines. -/
theorem hexportR_accounted_line :
    ∃ result, hexportR .default .permissive (oneEntry [97] [BACKSLASH]) LINE_FEED 0 false 0 [] =
        .ok result ∧
      (exportedEntries .default (oneEntry [97] [BACKSLASH]) LINE_FEED 0 [] ++ [0]).length ≤
        result.size ∧
      totlen .default (oneEntry [97] [BACKSLASH]) LINE_FEED 0 [] =
        (exportedEntries .default (oneEntry [97] [BACKSLASH]) LINE_FEED 0 []).length := by
  have nulFree : ∀ ep ∈ exportList .default (oneEntry [97] [BACKSLASH]) 0 [], 0 ∉ ep.dataText := by
    decide
  have exported : hexportR .default .permissive (oneEntry [97] [BACKSLASH]) LINE_FEED 0 false 0
      [] = .ok ⟨6, [97, 61, 92, 92, 10, 0]⟩ := by
    decide
  have accounted := hexportR_accounted_iff nulFree exported
  have notNul : LINE_FEED ≠ 0 := by decide
  exact ⟨_, exported, accounted.1.2 (Or.inl notNul), accounted.2.2 (Or.inl notNul)⟩

/-- The entry `a=\` with the separator NUL: five bytes are counted and six are written. -/
theorem hexportR_overruns :
    (hexportR .default .permissive (oneEntry [97] [BACKSLASH]) 0 0 false 0 []).map
        HexportResult.size = .ok 5 ∧
      exportedEntries .default (oneEntry [97] [BACKSLASH]) 0 0 [] ++ [0] =
        [97, 61, 92, 92, 0, 0] := by exact ⟨by decide, by decide⟩

/-! ## The order of the entries -/

theorem strcmp_le_iff {a b : CString} (ha : 0 ∉ a) (hb : 0 ∉ b) : strcmp a b ≤ 0 ↔ a ≤ b := by
  induction a generalizing b with
  | nil => cases b <;> simp [strcmp]
  | cons c cs ih =>
    cases b with
    | nil =>
      have positive := UInt8.toNat_inj.not.2 (ne_of_not_mem_cons ha).symm
      rw [UInt8.toNat_zero] at positive
      simp [strcmp]
      omega
    | cons d ds =>
      rw [mem_cons, not_or] at ha hb
      rw [strcmp, cons_le_cons_iff]
      split
      next same => simp [same, ih ha.2 hb.2]
      next other =>
        simp only [other, false_and, or_false, UInt8.lt_iff_toNat_lt]
        have apart := UInt8.toNat_inj.not.2 other
        omega

theorem exportList_eq_filter (config : EnvConfig) (htab : HsearchData) (flag : Nat)
    (argv : List CString) : exportList config htab flag argv = (exportList config htab 0 []).filter
      fun ep => (listedEntry config flag argv ⟨1, ep⟩).isSome := by
  unfold exportList
  rw [filter_filterMap]
  congr 1
  funext i
  by_cases used : (htab.node i).used ≤ 0
  · simp [listedEntry, used]
  · rw [listedEntry_eq, if_neg used, Option.filter_some]
    grind [listedEntry]

variable {entries : EnvMap} {other : HsearchData}

theorem perm_exportList (refines : htab.Refines entries) (refines' : other.Refines entries) :
    (exportList config htab flag argv).Perm (exportList config other flag argv) := by
  rw [exportList_eq_filter config htab, exportList_eq_filter config other]
  apply Perm.filter
  rw [perm_ext_iff_of_nodup (nodup_exportList config refines.valid).of_map
    (nodup_exportList config refines'.valid).of_map]
  intro ep
  rw [mem_exportList_iff refines, mem_exportList_iff refines']

theorem exportText_eq_of_perm {first second : List EnvEntry} (perm : first.Perm second)
    (nodup : (first.map EnvEntry.keyText).Nodup) (nulFree : ∀ ep ∈ first, 0 ∉ ep.keyText) :
    exportText sep first = exportText sep second := by
  have lex : ∀ list : List EnvEntry, (∀ ep ∈ list, 0 ∉ ep.keyText) →
      list.insertionSort (fun e1 e2 => strcmp e1.keyText e2.keyText ≤ 0) =
        list.insertionSort fun e1 e2 => e1.keyText ≤ e2.keyText := by
    intro list free
    have same := map_insertionSort (fun e1 e2 => strcmp e1.keyText e2.keyText ≤ 0)
      (fun e1 e2 => e1.keyText ≤ e2.keyText) id list fun a aMem b bMem =>
        strcmp_le_iff (free a aMem) (free b bMem)
    simpa using same
  have : IsTrans EnvEntry fun e1 e2 => e1.keyText ≤ e2.keyText := ⟨fun _ _ _ => List.le_trans⟩
  have : Std.Total fun e1 e2 : EnvEntry => e1.keyText ≤ e2.keyText :=
    ⟨fun _ _ => List.le_total _ _⟩
  unfold exportText
  rw [lex _ nulFree, lex _ fun ep mem => nulFree ep (perm.mem_iff.2 mem)]
  congr 1
  refine Perm.eq_of_pairwise ?_ (pairwise_insertionSort _ _) (pairwise_insertionSort _ _)
    ((perm_insertionSort _ _).trans (perm.trans (perm_insertionSort _ _).symm))
  intro a b aMem bMem low high
  rw [mem_insertionSort] at aMem bMem
  exact inj_on_of_nodup_map nodup aMem (perm.mem_iff.2 bMem) (List.le_antisymm low high)

/-- The text that is exported depends on the variables only: not on the order or the number of
the calls that led to them, nor on the size of the table. -/
theorem hexportR_canonical (refines : htab.Refines entries) (refines' : other.Refines entries)
    (strings : ∀ key ∈ entries.keys, 0 ∉ key) :
    hexportR config hooks htab sep flag resp size argv =
      hexportR config hooks other sep flag resp size argv := by
  have perm : (exportList config htab flag argv).Perm (exportList config other flag argv) :=
    perm_exportList refines refines'
  have listed : (exportList config htab flag argv).Sublist (exportList config htab 0 []) := by
    rw [exportList_eq_filter config htab flag]
    exact filter_sublist
  have texts : exportText sep (exportList config htab flag argv) =
      exportText sep (exportList config other flag argv) := by
    refine exportText_eq_of_perm perm
      ((listed.map _).nodup (nodup_exportList config refines.valid)) ?_
    intro ep mem
    obtain ⟨key, data, found, rfl⟩ := (mem_exportList_iff refines).1 (listed.subset mem)
    exact strings key (Finmap.mem_keys.2 (Finmap.mem_iff.2 ⟨data, found⟩))
  simp only [hexportR, texts, (perm.map (exportLength sep)).sum_eq]

/-- Two variables that are entered in either order. -/
theorem hexportR_canonical_swapped : ∃ created replies first second, hcreateR 2 = some created ∧
    htabRun [.enter [97] [49] 0, .enter [98] [50] 0] created = some (replies, first) ∧
    htabRun [.enter [98] [50] 0, .enter [97] [49] 0] created = some (replies, second) ∧
    hexportR .default .permissive first 0 0 false 0 [] =
      hexportR .default .permissive second 0 0 false 0 [] := by
  obtain ⟨created, result, empty⟩ := refines_hcreateR (by decide : 2 ≤ 2) (by norm_num)
  have size : created.size = 5 := by
    have known : hcreateR 2 = some ⟨replicate 6 ⟨USED_FREE, ⟨none, none⟩⟩, 5, 0⟩ := by decide
    cases result
    rfl
  obtain ⟨first, run, refines⟩ :=
    htabRun_refines [.enter [97] [49] 0, .enter [98] [50] 0] empty
  obtain ⟨second, run', refines'⟩ :=
    htabRun_refines [.enter [98] [50] 0, .enter [97] [49] 0] empty
  rw [size] at run refines run' refines'
  have swapped : (mapRun 5 [.enter [98] [50] 0, .enter [97] [49] 0] ∅).2 =
      (mapRun 5 [.enter [97] [49] 0, .enter [98] [50] 0] ∅).2 := by decide
  exact ⟨created, _, first, second, result, run, run',
    hexportR_canonical refines (swapped ▸ refines') (by decide)⟩

end UBoot
