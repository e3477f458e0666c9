import UBoot.EnvTextParse
import UBoot.HashTableMap

/-!
# Importing entries

The loop of `himport_r` reads the entries of a text and applies them one by one.  Without
hooks that refuse a change, and with room in the table, an entry has the effect on the table
that it has on a map.
-/

namespace UBoot

open List Finmap ImportItem

section Loop

variable {sep : UInt8} {hooks : HashHooks} {flag : Nat}

def ImportItem.refused : ImportItem → Bool
  | .insert [] _ => true
  | _ => false

def importAll (hooks : HashHooks) (flag : Nat) :
    List ImportItem → (vars : List (Option CString)) → HsearchData → Option ImportLoopResult
  | [], vars, htab => some ⟨none, vars, htab⟩
  | item :: items, vars, htab =>
    if item.refused then some ⟨some .EINVAL, vars, htab⟩
    else (importItem hooks flag htab vars item).bind fun next =>
      importAll hooks flag items next.1 next.2

theorem importLoop_succ (fuel : Nat) (dp : List UInt8) (left : Nat)
    (vars : List (Option CString)) (htab : HsearchData) :
    importLoop hooks sep flag (fuel + 1) dp left vars htab =
      if (parseItem sep dp).1.refused then some ⟨some .EINVAL, vars, htab⟩
      else (importItem hooks flag htab vars (parseItem sep dp).1).bind fun next =>
        if 0 < left - (dp.length - (parseItem sep dp).2.length) ∧
            (parseItem sep dp).2.headD 0 ≠ 0 then
          importLoop hooks sep flag fuel (parseItem sep dp).2
            (left - (dp.length - (parseItem sep dp).2.length)) next.1 next.2
        else some ⟨none, next.1, next.2⟩ := by
  rw [importLoop]
  generalize parseItem sep dp = parsed
  obtain ⟨item, next⟩ := parsed
  cases item with
  | comment => rfl
  | delete name => rfl
  | insert name value =>
    cases name with
    | nil => rfl
    | cons c name => rfl

theorem importLoop_flatMap {α : Type} {text : α → List UInt8} {item : α → ImportItem}
    {list : List α} {rest : List UInt8} (ended : rest.headD 0 = 0)
    (parses : ∀ x ∈ list, ∀ rest, parseItem sep (text x ++ rest) = (item x, rest))
    (starts : ∀ x ∈ list, (text x).headD 0 ≠ 0) :
    ∀ {fuel left vars htab}, list ≠ [] → list.length ≤ fuel → (list.flatMap text).length ≤ left →
      importLoop hooks sep flag fuel (list.flatMap text ++ rest) left vars htab =
        importAll hooks flag (list.map item) vars htab := by
  induction list with
  | nil =>
    intro _ _ _ _ nonempty
    exact absurd rfl nonempty
  | cons x list ih =>
    intro fuel left vars htab _ enough inside
    rw [length_cons] at enough
    obtain ⟨fuel, rfl⟩ : ∃ less, fuel = less + 1 := ⟨fuel - 1, by omega⟩
    rw [forall_mem_cons] at parses starts
    rw [flatMap_cons, length_append] at inside
    have consumed : (text x ++ (list.flatMap text ++ rest)).length -
        (list.flatMap text ++ rest).length = (text x).length := by
      rw [length_append, Nat.add_sub_cancel]
    rw [flatMap_cons, append_assoc, importLoop_succ, parses.1, map_cons, importAll, consumed]
    congr 1
    congr 1
    funext applied
    cases list with
    | nil => exact if_neg fun goesOn => goesOn.2 ended
    | cons next list =>
      have start := starts.2 next mem_cons_self
      obtain ⟨c, s, isText⟩ := exists_cons_of_ne_nil fun empty : text next = [] =>
        start (by rw [empty]; rfl)
      have goesOn : 0 < left - (text x).length ∧
          ((next :: list).flatMap text ++ rest).headD 0 ≠ 0 := by
        rw [isText] at start
        rw [flatMap_cons, isText, length_append, length_cons] at inside
        rw [flatMap_cons, isText]
        exact ⟨by omega, start⟩
      rw [if_pos goesOn]
      exact ih parses.2 starts.2 (cons_ne_nil _ _) (by omega) (by omega)

end Loop

section Effect

variable {htab : HsearchData} {entries : EnvMap}

theorem card_keys_insert_le (entries : EnvMap) (key data : CString) :
    (entries.insert key data).keys.card ≤ entries.keys.card + 1 := by
  have subset : (entries.insert key data).keys ⊆ insert key entries.keys := by
    intro other member
    rw [Finmap.mem_keys, mem_insert] at member
    rw [Finset.mem_insert, Finmap.mem_keys]
    exact member
  exact (Finset.card_le_card subset).trans (Finset.card_insert_le _ _)

def ImportItem.apply (entries : EnvMap) : ImportItem → EnvMap
  | .comment => entries
  | .delete name => entries.erase name
  | .insert name value => entries.insert name value

theorem card_keys_apply_le (entries : EnvMap) (item : ImportItem) :
    (item.apply entries).keys.card ≤ entries.keys.card + 1 := by
  cases item with
  | comment => exact Nat.le_succ _
  | delete name =>
    have erased : (entries.erase name).keys.card ≤ entries.keys.card := by
      rw [keys_erase]
      exact Finset.card_erase_le
    exact erased.trans (Nat.le_succ _)
  | insert name value => exact card_keys_insert_le entries name value

theorem importItem_permissive (flag : Nat) (refines : htab.Refines entries)
    (room : entries.keys.card < htab.size) (item : ImportItem) :
    ∃ imported, importItem .permissive flag htab [] item = some ([], imported) ∧
      imported.size = htab.size ∧ imported.Refines (item.apply entries) := by
  cases item with
  | comment => exact ⟨htab, rfl, rfl, refines⟩
  | delete name =>
    by_cases present : name ∈ entries
    · obtain ⟨data, stored⟩ := mem_iff.1 present
      obtain ⟨idx, live⟩ := refines.exists_live stored
      have deleted := hdeleteR_of_live refines.valid flag live
      refine ⟨hdeleteSlot htab idx, ?_, rfl, refines.hdeleteSlot live⟩
      simp [importItem, dropVarFromSet, deleted]
    have missing := hdeleteR_of_absent refines.valid .permissive flag (refines.absent present)
    have unchanged : entries.erase name = entries := by
      refine ext_lookup fun other => ?_
      by_cases same : other = name
      · rw [same, lookup_erase, lookup_eq_none.2 present]
      · exact lookup_erase_ne same
    refine ⟨htab, by simp [importItem, dropVarFromSet, missing], rfl, ?_⟩
    rw [apply, unchanged]
    exact refines
  | insert name value =>
    obtain ⟨result, imported, search, -, size, refined⟩ :=
      refines.hsearchR_enter flag value (Or.inr room)
    exact ⟨imported, by simp [importItem, dropVarFromSet, search], size, refined⟩

theorem importAll_permissive (flag : Nat) (items : List ImportItem)
    (accepted : ∀ item ∈ items, item.refused = false) :
    ∀ {htab entries}, htab.Refines entries → entries.keys.card + items.length ≤ htab.size →
      ∃ imported, (∀ more, importAll .permissive flag (items ++ more) [] htab =
          importAll .permissive flag more [] imported) ∧
        imported.size = htab.size ∧
        imported.Refines (items.foldl apply entries) ∧
        (items.foldl apply entries).keys.card ≤ entries.keys.card + items.length := by
  induction items with
  | nil =>
    intro htab entries refines _
    exact ⟨htab, fun more => rfl, rfl, refines, le_rfl⟩
  | cons item items ih =>
    intro htab entries refines room
    rw [length_cons] at room ⊢
    obtain ⟨applied, step, size, refined⟩ := importItem_permissive flag refines (by omega) item
    have grown := card_keys_apply_le entries item
    obtain ⟨imported, run, sizeEq, refinedAll, bound⟩ :=
      ih (fun other otherMem => accepted other (mem_cons_of_mem _ otherMem))
        refined (by omega)
    refine ⟨imported, ?_, sizeEq.trans size, refinedAll, ?_⟩
    · intro more
      rw [cons_append, importAll, accepted item mem_cons_self, step]
      exact run more
    · rw [foldl_cons]
      omega

end Effect

end UBoot
