import UBoot.EfiVarRuns

/-!
# Variables that are hidden at runtime

At runtime the names of the variables are asked for one after the other, and those
without the attribute for access at runtime are to be passed over.  The function copies
their names into the buffer of the caller on its way, and refuses a buffer that is too
small for one of them.  This file says what a call does to the buffer, and when a run of
calls shows nothing of the variables that are hidden.
-/

namespace UBoot

open List RecordFormat Memory EfiVariable Option EfiVarFound

@[ext]
structure NameAnswer where
  status : EfiVarStatus
  size : Nat
  name : Memory
  vendor : EfiGuid

def EfiNextName.answer (next : EfiNextName) : NameAnswer :=
  ⟨next.status, next.size, next.name, next.vendor⟩

def nextNames (c : EfiVarConfig) (mask : BitVec 32) : (sizes : List Nat) → (s : EfiVarStore) →
    (name : Memory) → (vendor : EfiGuid) → Option (List NameAnswer)
  | [], _, _, _ => some []
  | size :: sizes, s, name, vendor => do
      let next ← efiGetNextVariableNameMem c s size name vendor mask
      let rest ← nextNames c mask sizes next.store next.name next.vendor
      return next.answer :: rest

namespace EfiVariable

variable (v : EfiVariable)

def nameBytes : List UInt8 := u16Bytes v.name.val ++ [0, 0]

def nameSize : Nat := 2 * (v.name.val.length + 1)

@[simp]
theorem length_nameBytes : v.nameBytes.length = v.nameSize := by
  simp [nameBytes, nameSize]
  omega

end EfiVariable

def walkNames (mask : BitVec 32) (size : Nat) :
    (vs : List EfiVariable) → (name : Memory) → (vendor : EfiGuid) → NameAnswer
  | [], name, vendor => ⟨.NOT_FOUND, size, name, vendor⟩
  | v :: vs, name, vendor =>
    if size < v.nameSize then ⟨.BUFFER_TOO_SMALL, v.nameSize, name, vendor⟩
    else if v.matches mask then
      ⟨.SUCCESS, v.nameSize, name.write 0 v.nameBytes, v.guid⟩
    else walkNames mask size vs (name.write 0 v.nameBytes) v.guid

/-- The buffer has the name and the vendor of the last of some variables, or it is empty and
there are none. -/
inductive BufferAt (name : Memory) (vendor : EfiGuid) : List EfiVariable → Prop
  | start (empty : u16At name 0 = 0) : BufferAt name vendor []
  | behind (first : List EfiVariable) (v : EfiVariable) (holds : StringAt name 0 v.name.val)
      (same : vendor = v.guid) : BufferAt name vendor (first ++ [v])

section Walk

variable {c : EfiVarConfig} {s : EfiVarStore} {mask : BitVec 32} {size rounds : Nat}
  {name : Memory} {vendor : EfiGuid} {v : EfiVariable} {before behind vs : List EfiVariable}

theorem stringAt_write (name : Memory) (v : EfiVariable) :
    StringAt (name.write 0 v.nameBytes) 0 v.name.val := by
  have same := read_write_same name 0 v.nameBytes
  rwa [v.length_nameBytes] at same

variable {m : Memory}

theorem length_u16Units_of_lt {units : List UInt16} {a count : Nat}
    (here : StringAt m a units) (noZero : 0 ∉ units) (longer : count < units.length) :
    (u16Units m count a).length = count := by
  induction units generalizing a count with
  | nil => simp at longer
  | cons unit units ih =>
    cases count with
    | zero => rfl
    | succ count =>
      obtain ⟨first, rest⟩ := stringAt_cons.1 here
      rw [mem_cons, not_or] at noZero
      rw [length_cons] at longer
      rw [u16Units, first, if_neg (Ne.symm noZero.1), length_cons, ih rest noZero.2 (by omega)]

theorem u16Units_of_terminated {units : List UInt16} (here : StringAt name 0 units)
    (noZero : 0 ∉ units) (terminated : u16Strnlen name 0 (size / 2) ≠ size / 2) :
    u16Units name (size / 2) 0 = units := by
  by_cases short : units.length ≤ size / 2
  · exact u16Units_eq here noZero short
  · exact absurd (length_u16Units_of_lt here noZero (by omega)) terminated

theorem terminated_write (name : Memory) (fits : ¬size < v.nameSize) :
    u16Strnlen (name.write 0 v.nameBytes) 0 (size / 2) ≠ size / 2 := by
  unfold nameSize at fits
  rw [u16Strnlen, u16Units_eq (stringAt_write name v) v.name.property (by omega)]
  omega

section Stores

variable (stores : Stores c s (before ++ behind)) (position : BufferAt name vendor before)
  (terminated : u16Strnlen name 0 (size / 2) ≠ size / 2)

include stores position terminated

theorem Stores.findNext : ∃ found, efiVarMemFind c s vendor
        ⟨u16Units name (size / 2) 0, zero_notMem_u16Units _ _ _⟩ = some found ∧
      ¬(found.var = none ∧ u16At name 0 ≠ 0) ∧
      found.next = (if behind = [] then none
        else some (sizeofEfiVarFile + efiVarFormat.total before)) ∧
      Stores c found.store (before ++ behind) ∧ found.store.buf = s.buf := by
  obtain ⟨found, finds, stores', sameBuf, -⟩ := stores.find vendor
    ⟨u16Units name (size / 2) 0, zero_notMem_u16Units _ _ _⟩
  refine ⟨found, finds, ?_⟩
  cases position with
  | start empty =>
    have noUnits : u16Units name (size / 2) 0 = [] :=
      u16Units_of_terminated (stringAt_nil.2 empty) (by simp) terminated
    unfold efiVarMemFind at finds
    rw [if_pos noUnits] at finds
    cases finds
    refine ⟨by simp [empty], ?_, stores', sameBuf⟩
    simp only [beforeLast, stores.length, nil_append, total_nil, Nat.add_zero]
    cases behind with
    | nil => simp
    | cons v behind =>
      have size := Layout.size_ge v
      rw [total_cons, if_neg (by omega), if_neg (by simp)]
  | behind first v holds same =>
    have units : u16Units name (size / 2) 0 = v.name.val :=
      u16Units_of_terminated holds v.name.property terminated
    have isName : (⟨u16Units name (size / 2) 0, zero_notMem_u16Units _ _ _⟩ : U16String) =
        v.name := Subtype.ext units
    rw [append_assoc, singleton_append] at stores
    have distinct := stores.distinct
    rw [isName, same, stores.efiVarMemFind_eq v.guid (stores.named v (by simp))] at finds
    cases finds
    have located := locate_middle (a := sizeofEfiVarFile) distinct
    simp only [key] at located
    refine ⟨?_, ?_, stores', sameBuf⟩
    · simp [scanned, located]
    · simp [scanned, located, total_append, total_nil, Nat.add_assoc]

theorem nextNameLoop_eq (enough : behind.length < rounds) :
    ∃ next, nextNameLoop c mask size rounds s name vendor = some next ∧
      next.answer = walkNames mask size behind name vendor := by
  induction behind generalizing before s name vendor rounds with
  | nil =>
    obtain _ | rounds := rounds
    · omega
    obtain ⟨found, finds, exists_, isNext, -⟩ := stores.findNext position terminated
    rw [if_pos rfl] at isNext
    refine ⟨⟨.NOT_FOUND, size, name, vendor, found.store⟩, ?_, rfl⟩
    rw [nextNameLoop, if_neg terminated]
    simp [finds, exists_, isNext]
  | cons v behind ih =>
    obtain _ | rounds := rounds
    · omega
    rw [length_cons] at enough
    obtain ⟨found, finds, exists_, isNext, stores', sameBuf⟩ := stores.findNext position terminated
    rw [if_neg (by simp)] at isNext
    have here := stores'.here
    have strlen := here.strlen (stores'.nameShort (by simp))
    have copied : found.store.buf.read
        (varName (sizeofEfiVarFile + efiVarFormat.total before)) v.nameSize = v.nameBytes :=
      here.name
    have hidden : (mask ≠ 0 ∧ v.attr &&& mask ≠ mask) ↔ ¬v.matches mask = true := by
      unfold EfiVariable.matches
      rw [beq_iff_eq]
      constructor
      · exact fun both => both.2
      intro other
      refine ⟨?_, other⟩
      rintro rfl
      simp at other
    rw [nextNameLoop, if_neg terminated]
    simp only [finds, Option.pure_def, bind_eq_bind, bind_some, if_neg exists_,
      isNext, strlen, here.attr, here.guid, hidden]
    rw [walkNames]
    have needed : 2 * (v.name.val.length + 1) = v.nameSize := rfl
    rw [needed]
    by_cases fits : size < v.nameSize
    · rw [if_pos fits, if_pos fits]
      exact ⟨_, rfl, rfl⟩
    rw [if_neg fits, if_neg fits, copied]
    cases isVisible : v.matches mask with
    | true => exact ⟨_, rfl, rfl⟩
    | false =>
      have split : Stores c found.store ((before ++ [v]) ++ behind) := by simpa using stores'
      apply ih split
      · exact .behind before v (stringAt_write name v) rfl
      · exact terminated_write name fits
      · omega

end Stores

def nameAnswer (mask : BitVec 32) (size : Nat) (vs : List EfiVariable) (name : Memory)
    (vendor : EfiGuid) : NameAnswer :=
  if u16Strnlen name 0 (size / 2) = size / 2 then ⟨.INVALID_PARAMETER, size, name, vendor⟩
  else walkNames mask size vs name vendor

theorem Stores.nextName_eq (stores : Stores c s (before ++ behind))
    (position : BufferAt name vendor before) (mask : BitVec 32) (size : Nat) :
    ∃ next, efiGetNextVariableNameMem c s size name vendor mask = some next ∧
      next.answer = nameAnswer mask size behind name vendor ∧
      Stores c next.store (before ++ behind) := by
  have short := stores.length_lt
  rw [length_append] at short
  unfold efiGetNextVariableNameMem nameAnswer
  by_cases refused : u16Strnlen name 0 (size / 2) = size / 2
  · refine ⟨⟨.INVALID_PARAMETER, size, name, vendor, s⟩, ?_, ?_, stores⟩
    · rw [nextNameLoop, if_pos refused]
    · rw [if_pos refused]
      rfl
  obtain ⟨next, run, answer⟩ := nextNameLoop_eq stores position refused
    (show behind.length < c.bufSize + 1 by omega)
  rw [if_neg refused]
  exact ⟨next, run, answer, stores.nextName run⟩

theorem bufferAt_walkNames (position : BufferAt name vendor before) :
    ∃ before' behind', before ++ behind = before' ++ behind' ∧
      BufferAt (walkNames mask size behind name vendor).name
        (walkNames mask size behind name vendor).vendor before' := by
  induction behind generalizing before name vendor with
  | nil => exact ⟨before, [], rfl, position⟩
  | cons v behind ih =>
    rw [walkNames]
    split
    · exact ⟨before, v :: behind, rfl, position⟩
    split
    · exact ⟨before ++ [v], behind, by simp, .behind before v (stringAt_write name v) rfl⟩
    · obtain ⟨before', behind', split, at_⟩ := ih (.behind before v (stringAt_write name v) rfl)
      exact ⟨before', behind', by simpa using split, at_⟩

theorem bufferAt_nameAnswer (mask : BitVec 32) (size : Nat) (behind : List EfiVariable)
    (position : BufferAt name vendor before) :
    ∃ before' behind', before ++ behind = before' ++ behind' ∧
      BufferAt (nameAnswer mask size behind name vendor).name
        (nameAnswer mask size behind name vendor).vendor before' := by
  unfold nameAnswer
  split
  · exact ⟨before, behind, rfl, position⟩
  · exact bufferAt_walkNames position

theorem nextNames_cons {sizes : List Nat} {next : EfiNextName} {answer : NameAnswer}
    (run : efiGetNextVariableNameMem c s size name vendor mask = some next)
    (same : next.answer = answer) :
    nextNames c mask (size :: sizes) s name vendor =
      (nextNames c mask sizes next.store answer.name answer.vendor).map (answer :: ·) := by
  subst same
  rw [nextNames, run]
  exact map_eq_bind.symm

theorem Stores.nextNames_returns {sizes : List Nat} (stores : Stores c s (before ++ behind))
    (position : BufferAt name vendor before) :
    ∃ answers, nextNames c mask sizes s name vendor = some answers := by
  induction sizes generalizing s name vendor before behind with
  | nil => exact ⟨[], rfl⟩
  | cons size sizes ih =>
    obtain ⟨next, run, answer, stores'⟩ := stores.nextName_eq position mask size
    obtain ⟨before', behind', split, position'⟩ := bufferAt_nameAnswer mask size behind position
    rw [split] at stores'
    obtain ⟨answers, rest⟩ := ih stores' position'
    rw [nextNames_cons run answer, rest]
    exact ⟨_, rfl⟩

/-! ## What is left of hidden variables -/

def writeNames (vs : List EfiVariable) (name : Memory) : Memory :=
  vs.foldl (fun name v => name.write 0 v.nameBytes) name

def lastVendor (vs : List EfiVariable) (vendor : EfiGuid) : EfiGuid :=
  vs.foldl (fun _ v => v.guid) vendor

def HoldsName (name : Memory) (vendor : EfiGuid) (v : EfiVariable) : Prop :=
  StringAt name 0 v.name.val ∧ vendor = v.guid

theorem holdsName_writeNames (vs : List EfiVariable) (v : EfiVariable) (name : Memory)
    (vendor : EfiGuid) :
    HoldsName (writeNames (vs ++ [v]) name) (lastVendor (vs ++ [v]) vendor) v := by
  constructor
  · rw [writeNames, foldl_append]
    exact stringAt_write _ v
  · rw [lastVendor, foldl_append]
    rfl

section AreHidden

variable {hidden : List EfiVariable} (areHidden : ∀ h ∈ hidden, h.matches mask = false)
  (fit : ∀ h ∈ hidden, ¬size < h.nameSize)

include areHidden fit

theorem walkNames_append : walkNames mask size (hidden ++ vs) name vendor =
      walkNames mask size vs (writeNames hidden name) (lastVendor hidden vendor) := by
  induction hidden generalizing name vendor with
  | nil => rfl
  | cons h hidden ih =>
    rw [forall_mem_cons] at areHidden fit
    rw [cons_append, walkNames, if_neg fit.1, if_neg (by simp [areHidden.1]), ih areHidden.2 fit.2]
    rfl

theorem walkNames_tooSmall (tooLong : size < v.nameSize) :
    walkNames mask size (hidden ++ v :: vs) name vendor =
      ⟨.BUFFER_TOO_SMALL, v.nameSize, writeNames hidden name, lastVendor hidden vendor⟩ := by
  rw [walkNames_append areHidden fit, walkNames, if_pos tooLong]

end AreHidden

theorem fit_or_first (size : Nat) (vs : List EfiVariable) :
    (∀ v ∈ vs, ¬size < v.nameSize) ∨ ∃ first v rest, vs = first ++ v :: rest ∧
      (∀ w ∈ first, ¬size < w.nameSize) ∧ size < v.nameSize := by
  induction vs with
  | nil => exact .inl (by simp)
  | cons v vs ih =>
    by_cases tooLong : size < v.nameSize
    · exact .inr ⟨[], v, vs, rfl, by simp, tooLong⟩
    · rcases ih with allFit | ⟨first, w, rest, rfl, fit, wTooLong⟩
      · exact .inl (forall_mem_cons.2 ⟨tooLong, allFit⟩)
      · exact .inr ⟨v :: first, w, rest, rfl, forall_mem_cons.2 ⟨tooLong, fit⟩, wTooLong⟩

/-- The hidden variables before the next one that is seen leave no trace in the answer: there
are none, or they all fit in the buffer and what they leave of it behind the name that is
seen is as before, or the first of them is as much too long as that name. -/
def NoTrace (mask : BitVec 32) (size : Nat) (vs : List EfiVariable) (name : Memory) : Prop :=
  match vs.takeWhile fun v => !v.matches mask with
  | [] => True
  | h :: hidden => ∃ v, vs.find? (EfiVariable.matches mask) = some v ∧
      (v.nameSize ≤ size ∧ (∀ w ∈ h :: hidden, w.nameSize ≤ size) ∧
          (∀ x, v.nameSize ≤ x → writeNames (h :: hidden) name x = name x) ∨
        size < v.nameSize ∧ h.nameSize = v.nameSize)

theorem walkNames_filter (mask : BitVec 32) (size : Nat) (vs : List EfiVariable) (name : Memory)
    (vendor : EfiGuid) :
    walkNames mask size (vs.filter (EfiVariable.matches mask)) name vendor =
      match vs.find? (EfiVariable.matches mask) with
      | none => ⟨.NOT_FOUND, size, name, vendor⟩
      | some v =>
        if size < v.nameSize then ⟨.BUFFER_TOO_SMALL, v.nameSize, name, vendor⟩
        else ⟨.SUCCESS, v.nameSize, name.write 0 v.nameBytes, v.guid⟩ := by
  induction vs with
  | nil => rfl
  | cons v vs ih =>
    cases seen : v.matches mask with
    | true =>
      rw [filter_cons_of_pos seen, find?_cons_of_pos seen, walkNames]
      simp [seen]
    | false => rw [filter_cons_of_neg (by simp [seen]), find?_cons_of_neg (by simp [seen]), ih]

theorem exists_hidden (mask : BitVec 32) (vs : List EfiVariable) :
    ∃ hidden seen, vs = hidden ++ seen ∧ (vs.takeWhile fun v => !v.matches mask) = hidden ∧
      (∀ h ∈ hidden, h.matches mask = false) ∧
      (seen = [] ∧ vs.find? (EfiVariable.matches mask) = none ∨
        ∃ v rest, seen = v :: rest ∧ v.matches mask = true ∧
          vs.find? (EfiVariable.matches mask) = some v) := by
  induction vs with
  | nil => exact ⟨[], [], rfl, rfl, by simp, .inl ⟨rfl, rfl⟩⟩
  | cons v vs ih =>
    cases isSeen : v.matches mask with
    | true => exact ⟨[], v :: vs, by simp [isSeen]⟩
    | false =>
      obtain ⟨hidden, seen, rfl, taken, areHidden, next⟩ := ih
      refine ⟨v :: hidden, seen, rfl, by simp [isSeen, taken],
        forall_mem_cons.2 ⟨isSeen, areHidden⟩, ?_⟩
      rw [find?_cons_of_neg (by simp [isSeen])]
      exact next

variable {first : List EfiVariable}

theorem writeNames_ne (nonempty : first ≠ []) (fresh : ∀ w ∈ first, ¬HoldsName name vendor w) :
    ¬(writeNames first name = name ∧ lastVendor first vendor = vendor) := by
  rintro ⟨sameName, sameVendor⟩
  obtain ⟨init, last, rfl⟩ := (eq_nil_or_concat first).resolve_left nonempty
  have holds := holdsName_writeNames init last name vendor
  rw [← concat_eq_append, sameName, sameVendor] at holds
  exact fresh last (by simp) holds

theorem write_eq_iff {m' : Memory} {bytes : List UInt8} :
    m.write 0 bytes = m'.write 0 bytes ↔ ∀ x, bytes.length ≤ x → m x = m' x := by
  constructor
  · intro same x behind
    have atX := congrFun same x
    rwa [write_of_ge (by omega), write_of_ge (by omega)] at atX
  intro same
  funext x
  by_cases inside : x < bytes.length
  · have first := write_inside (m := m) (a := 0) inside
    have second := write_inside (m := m') (a := 0) inside
    rw [Nat.zero_add] at first second
    rw [first, second]
  · rw [write_of_ge (by omega), write_of_ge (by omega), same x (by omega)]

theorem walkNames_eq_filter_iff (fresh : ∀ w ∈ vs, ¬HoldsName name vendor w) :
    walkNames mask size vs name vendor =
        walkNames mask size (vs.filter (EfiVariable.matches mask)) name vendor ↔
      NoTrace mask size vs name := by
  obtain ⟨hidden, seen, rfl, taken, areHidden, next⟩ := exists_hidden mask vs
  rw [walkNames_filter, NoTrace, taken]
  cases hidden with
  | nil =>
    refine iff_of_true ?_ trivial
    rcases next with ⟨rfl, none⟩ | ⟨v, rest, rfl, isSeen, some⟩
    · rw [none]
      rfl
    · rw [some, nil_append, walkNames]
      simp [isSeen]
  | cons h hidden =>
    have freshHidden : ∀ w ∈ h :: hidden, ¬HoldsName name vendor w :=
      fun w member => fresh w (mem_append_left _ member)
    rcases fit_or_first size (h :: hidden) with allFit | ⟨first, w, rest, split, fit, tooLong⟩
    · have shows := writeNames_ne (by simp) freshHidden
      rw [walkNames_append areHidden allFit]
      rcases next with ⟨rfl, none⟩ | ⟨v, rest, rfl, isSeen, some⟩
      · rw [none, walkNames]
        simp only [NameAnswer.mk.injEq, true_and, reduceCtorEq, false_and, exists_false, iff_false]
        exact shows
      rw [some, walkNames]
      simp only [isSeen, if_true, Option.some.injEq, exists_eq_left']
      by_cases tooLong : size < v.nameSize
      · rw [if_pos tooLong, if_pos tooLong]
        have headFits := allFit h (by simp)
        refine iff_of_false ?_ (by omega)
        simpa only [NameAnswer.mk.injEq, true_and] using shows
      rw [if_neg tooLong, if_neg tooLong]
      simp only [NameAnswer.mk.injEq, true_and, and_true, tooLong, false_and, or_false]
      rw [write_eq_iff, v.length_nameBytes]
      refine ⟨fun same => ⟨by omega, ?_, same⟩, fun kept => kept.2.2⟩
      intro w member
      have wFits := allFit w member
      omega
    have shows : first ≠ [] → ¬(writeNames first name = name ∧ lastVendor first vendor = vendor) :=
      fun nonempty => writeNames_ne nonempty fun x member =>
        freshHidden x (split ▸ mem_append_left _ member)
    have wHidden : w ∈ h :: hidden := by simp [split]
    have walked : walkNames mask size (h :: hidden ++ seen) name vendor =
        ⟨.BUFFER_TOO_SMALL, w.nameSize, writeNames first name, lastVendor first vendor⟩ := by
      rw [split, append_assoc, cons_append]
      exact walkNames_tooSmall
        (fun x member => areHidden x (split ▸ mem_append_left _ member)) fit tooLong
    rw [walked]
    rcases next with ⟨rfl, none⟩ | ⟨v, rest, rfl, -, some⟩
    · rw [none]
      simp
    rw [some]
    simp only [Option.some.injEq, exists_eq_left']
    by_cases vTooLong : size < v.nameSize
    · rw [if_pos vTooLong]
      cases first with
      | nil =>
        cases split
        simp [writeNames, lastVendor, vTooLong]
      | cons x first =>
        cases split
        have headFits := fit h (by simp)
        refine iff_of_false ?_ (by omega)
        intro same
        injection same with _ _ sameName sameVendor
        exact shows (by simp) ⟨sameName, sameVendor⟩
    · rw [if_neg vTooLong]
      refine iff_of_false (by simp) ?_
      rintro (⟨-, allFit, -⟩ | ⟨longer, -⟩)
      · have wFits := allFit w wHidden
        omega
      · exact vTooLong longer

theorem stringAt_unique {a : Nat} {name name' : U16String}
    (here : StringAt m a name.val) (also : StringAt m a name'.val) : name = name' := by
  have first := u16Units_eq here name.property (Nat.le_add_right _ name'.val.length)
  have second := u16Units_eq also name'.property (Nat.le_add_left _ name.val.length)
  exact Subtype.ext (first.symm.trans second)

/-- Lists that are split at variables with the same key are split at the same place. -/
theorem split_unique {first' rest rest' : List EfiVariable} {v' : EfiVariable}
    (distinct : ((first ++ v :: rest).map key).Nodup)
    (split : first ++ v :: rest = first' ++ v' :: rest') (same : v.key = v'.key) :
    first ++ [v] = first' ++ [v'] := by
  have distinct' := distinct
  rw [split] at distinct'
  rcases append_eq_append_iff.1 split with ⟨more, rfl, isRest⟩ | ⟨more, rfl, isRest⟩
  · cases more with
    | nil =>
      cases isRest
      simp
    | cons x more =>
      cases isRest
      exact absurd same (notBefore_of_distinct distinct' v (by simp))
  cases more with
  | nil =>
    cases isRest
    simp
  | cons x more =>
    cases isRest
    exact absurd same.symm (notBefore_of_distinct distinct v' (by simp))

variable {behind' before' : List EfiVariable}

theorem bufferAt_unique (distinct : ((before ++ behind).map key).Nodup)
    (named : ∀ v ∈ before ++ behind, v.name.val ≠ [])
    (split : before ++ behind = before' ++ behind') (position : BufferAt name vendor before)
    (position' : BufferAt name vendor before') : before = before' := by
  have notEmpty : ∀ w ∈ before ++ behind, StringAt name 0 w.name.val → u16At name 0 ≠ 0 := by
    intro w member holds empty
    have same : w.name = ⟨[], by simp⟩ := stringAt_unique holds (stringAt_nil.2 empty)
    exact named w member (by rw [same])
  cases position with
  | start empty =>
    cases position' with
    | start _ => rfl
    | behind first w holds _ => exact absurd empty (notEmpty w (by rw [split]; simp) holds)
  | behind first v holds same =>
    cases position' with
    | start empty => exact absurd empty (notEmpty v (by simp) holds)
    | behind first' w holds' same' =>
      rw [append_assoc, append_assoc] at split
      rw [append_assoc] at distinct
      refine split_unique distinct split ?_
      exact Prod.ext (stringAt_unique holds holds') (same.symm.trans same')

theorem fresh_behind (distinct : ((before ++ behind).map key).Nodup)
    (named : ∀ v ∈ before ++ behind, v.name.val ≠ [])
    (position : BufferAt name vendor before) : ∀ w ∈ behind, ¬HoldsName name vendor w := by
  rintro w member ⟨holds, same⟩
  obtain ⟨first, rest, rfl⟩ := append_of_mem member
  have also : BufferAt name vendor ((before ++ first) ++ [w]) := .behind _ w holds same
  have split : before ++ (first ++ w :: rest) = ((before ++ first) ++ [w]) ++ rest := by simp
  have one := bufferAt_unique distinct named split position also
  have lengths := congrArg length one
  simp at lengths

/-! ## Runs -/

structure SeenAt (mask : BitVec 32) (name : Memory) (vendor : EfiGuid)
    (before : List EfiVariable) : Prop where
  position : BufferAt name vendor before
  seen : ∀ v, before.getLast? = some v → v.matches mask = true

theorem SeenAt.filter (seenAt : SeenAt mask name vendor before) :
    BufferAt name vendor (before.filter (EfiVariable.matches mask)) := by
  obtain ⟨position, seen⟩ := seenAt
  cases position with
  | start empty => exact .start empty
  | behind first v holds same =>
    have isSeen := seen v (by simp)
    rw [filter_append, filter_cons_of_pos isSeen, filter_nil]
    exact .behind _ v holds same

/-- A call whose answer is that of the variables that are seen leaves the buffer at one of
them. -/
theorem SeenAt.next (seenAt : SeenAt mask name vendor before) (size : Nat)
    (behind : List EfiVariable) :
    ∃ before' behind', before ++ behind = before' ++ behind' ∧
      SeenAt mask (nameAnswer mask size (behind.filter (EfiVariable.matches mask)) name
        vendor).name (nameAnswer mask size (behind.filter (EfiVariable.matches mask)) name
        vendor).vendor before' := by
  unfold nameAnswer
  split
  · exact ⟨before, behind, rfl, seenAt⟩
  obtain ⟨hidden, seen, rfl, -, -, next⟩ := exists_hidden mask behind
  rw [walkNames_filter]
  rcases next with ⟨rfl, none⟩ | ⟨v, rest, rfl, isSeen, some⟩
  · rw [none]
    exact ⟨before, _, rfl, seenAt⟩
  rw [some]
  simp only
  split
  · exact ⟨before, _, rfl, seenAt⟩
  · refine ⟨before ++ hidden ++ [v], rest, by simp, ?_, ?_⟩
    · exact .behind _ v (stringAt_write name v) rfl
    · simp [isSeen]

/-- In each call of a run the hidden variables that are passed over leave no trace. -/
def LeavesNoTrace (c : EfiVarConfig) (mask : BitVec 32) (vs : List EfiVariable) :
    (sizes : List Nat) → (s : EfiVarStore) → (name : Memory) → (vendor : EfiGuid) → Prop
  | [], _, _, _ => True
  | size :: sizes, s, name, vendor =>
    (u16Strnlen name 0 (size / 2) ≠ size / 2 → ∀ before behind, vs = before ++ behind →
      BufferAt name vendor before → NoTrace mask size behind name) ∧
    ∀ next, efiGetNextVariableNameMem c s size name vendor mask = some next →
      LeavesNoTrace c mask vs sizes next.store next.name next.vendor

/-- A call gives the answer of the variables that are seen exactly if the hidden ones leave no
trace. -/
theorem Stores.nameAnswer_eq_iff (stores : Stores c s (before ++ behind))
    (position : BufferAt name vendor before) :
    nameAnswer mask size behind name vendor =
        nameAnswer mask size (behind.filter (EfiVariable.matches mask)) name vendor ↔
      (u16Strnlen name 0 (size / 2) ≠ size / 2 → ∀ before' behind',
        before ++ behind = before' ++ behind' → BufferAt name vendor before' →
          NoTrace mask size behind' name) := by
  have here : (∀ before' behind', before ++ behind = before' ++ behind' →
      BufferAt name vendor before' → NoTrace mask size behind' name) ↔
      NoTrace mask size behind name := by
    constructor
    · exact fun all => all before behind rfl position
    · intro noTrace before' behind' split position'
      obtain rfl := bufferAt_unique stores.distinct stores.named split position position'
      rwa [← append_cancel_left split]
  rw [here]
  unfold nameAnswer
  by_cases refused : u16Strnlen name 0 (size / 2) = size / 2
  · simp [refused]
  · rw [if_neg refused, if_neg refused,
      walkNames_eq_filter_iff (fresh_behind stores.distinct stores.named position)]
    simp [refused]

theorem filter_behind_eq (distinct : ((before ++ behind).map EfiVariable.key).Nodup)
    (named : ∀ v ∈ before ++ behind, v.name.val ≠ [])
    (same : (before ++ behind).filter (EfiVariable.matches mask) =
      (before' ++ behind').filter (EfiVariable.matches mask))
    (seenAt : SeenAt mask name vendor before) (seenAt' : SeenAt mask name vendor before') :
    behind.filter (EfiVariable.matches mask) = behind'.filter (EfiVariable.matches mask) := by
  have sub : ((before ++ behind).filter (EfiVariable.matches mask)).Sublist (before ++ behind) :=
    filter_sublist
  have distinctSeen := distinct.sublist (sub.map EfiVariable.key)
  have namedSeen : ∀ v ∈ (before ++ behind).filter (EfiVariable.matches mask),
      v.name.val ≠ [] := fun v member => named v (sub.subset member)
  rw [filter_append, filter_append] at same
  rw [filter_append] at distinctSeen namedSeen
  have one := bufferAt_unique distinctSeen namedSeen same seenAt.filter seenAt'.filter
  rw [one] at same
  exact append_cancel_left same

variable {t : EfiVarStore} {ws : List EfiVariable} {sizes : List Nat}

/-- Runs that leave no trace of hidden variables are the same for stores in which the same
variables are seen. -/
theorem nextNames_eq (stores : Stores c s vs) (stores' : Stores c t ws)
    (same : vs.filter (EfiVariable.matches mask) = ws.filter (EfiVariable.matches mask))
    (split : vs = before ++ behind)
    (split' : ws = before' ++ behind') (seenAt : SeenAt mask name vendor before)
    (seenAt' : SeenAt mask name vendor before')
    (noTrace : LeavesNoTrace c mask vs sizes s name vendor)
    (noTrace' : LeavesNoTrace c mask ws sizes t name vendor) :
    nextNames c mask sizes s name vendor = nextNames c mask sizes t name vendor := by
  induction sizes generalizing s t name vendor before behind before' behind' with
  | nil => rfl
  | cons size sizes ih =>
    subst split split'
    obtain ⟨next, run, answer, kept⟩ := stores.nextName_eq seenAt.position mask size
    obtain ⟨next', run', answer', kept'⟩ := stores'.nextName_eq seenAt'.position mask size
    rw [(stores.nameAnswer_eq_iff seenAt.position).2 noTrace.1] at answer
    rw [(stores'.nameAnswer_eq_iff seenAt'.position).2 noTrace'.1,
      ← filter_behind_eq stores.distinct stores.named same seenAt seenAt'] at answer'
    obtain ⟨first, rest, split, nextAt⟩ := seenAt.next size behind
    obtain ⟨first', rest', split', nextAt'⟩ := seenAt'.next size behind'
    rw [← filter_behind_eq stores.distinct stores.named same seenAt seenAt'] at nextAt'
    have rest1 := noTrace.2 next run
    have rest2 := noTrace'.2 next' run'
    rw [nextNames_cons run answer, nextNames_cons run' answer']
    rw [← answer] at nextAt nextAt' answer' ⊢
    congr 1
    have sameName : next'.name = next.name := congrArg NameAnswer.name answer'
    have sameVendor : next'.vendor = next.vendor := congrArg NameAnswer.vendor answer'
    rw [sameName, sameVendor] at rest2
    exact ih kept kept' split split' nextAt nextAt' rest1 rest2

/-- A run shows nothing of the hidden variables exactly if they leave no trace in any call. -/
theorem nextNames_eq_seen_iff (stores : Stores c s vs)
    (stores' : Stores c t (vs.filter (EfiVariable.matches mask))) (split : vs = before ++ behind)
    (seenAt : SeenAt mask name vendor before) :
    nextNames c mask sizes s name vendor = nextNames c mask sizes t name vendor ↔
      LeavesNoTrace c mask vs sizes s name vendor := by
  induction sizes generalizing s t name vendor before behind with
  | nil => exact iff_of_true rfl trivial
  | cons size sizes ih =>
    subst split
    obtain ⟨next, run, answer, kept⟩ := stores.nextName_eq seenAt.position mask size
    rw [filter_append] at stores'
    obtain ⟨next', run', answer', kept'⟩ := stores'.nextName_eq seenAt.filter mask size
    obtain ⟨first, rest, split, position⟩ := bufferAt_nameAnswer mask size behind seenAt.position
    obtain ⟨first', rest', split', position'⟩ := bufferAt_nameAnswer mask size
      (behind.filter (EfiVariable.matches mask)) seenAt.filter
    obtain ⟨answers, isRun⟩ : ∃ answers, nextNames c mask sizes next.store
        (nameAnswer mask size behind name vendor).name
        (nameAnswer mask size behind name vendor).vendor = some answers :=
      (split ▸ kept).nextNames_returns position
    obtain ⟨answers', isRun'⟩ : ∃ answers, nextNames c mask sizes next'.store
        (nameAnswer mask size (behind.filter (EfiVariable.matches mask)) name vendor).name
        (nameAnswer mask size (behind.filter (EfiVariable.matches mask)) name vendor).vendor =
          some answers :=
      (split' ▸ kept').nextNames_returns position'
    have sameAnswer : nameAnswer mask size behind name vendor =
        nameAnswer mask size (behind.filter (EfiVariable.matches mask)) name vendor ↔ _ :=
      stores.nameAnswer_eq_iff seenAt.position
    -- The rest of the runs, once the first answers are the same.
    have sameRest : nameAnswer mask size behind name vendor =
        nameAnswer mask size (behind.filter (EfiVariable.matches mask)) name vendor →
        (answers = answers' ↔
          LeavesNoTrace c mask (before ++ behind) sizes next.store next.name next.vendor) := by
      intro same
      obtain ⟨first, rest, split, nextAt⟩ := seenAt.next size behind
      rw [← same] at nextAt isRun'
      have rest := ih kept (by rwa [filter_append]) split nextAt
      rw [isRun, isRun', some.injEq] at rest
      rw [rest, ← answer]
      rfl
    rw [nextNames_cons run answer, nextNames_cons run' answer', isRun, isRun', map_some,
      map_some, some.injEq, cons.injEq]
    constructor
    · rintro ⟨same, restSame⟩
      refine ⟨sameAnswer.1 same, ?_⟩
      intro other run''
      cases run.symm.trans run''
      exact (sameRest same).1 restSame
    · rintro ⟨noTrace, later⟩
      have same := sameAnswer.2 noTrace
      exact ⟨same, (sameRest same).2 (later next run)⟩

end Walk

/-- The names that are asked for at runtime are the same for two stores in which the same
variables are seen if the hidden ones leave no trace, and a run on one store is that on the
store without its hidden variables only then. -/
theorem nextNames_hidden (c : EfiVarConfig) (s t : EfiVarStore) (vs ws : List EfiVariable)
    (stores : Stores c s vs) (stores' : Stores c t ws)
    (same : vs.filter (EfiVariable.matches EFI_VARIABLE_RUNTIME_ACCESS) =
      ws.filter (EfiVariable.matches EFI_VARIABLE_RUNTIME_ACCESS))
    (name : Memory) (vendor : EfiGuid) (empty : u16At name 0 = 0) (sizes : List Nat) :
    (∃ answers, nextNames c EFI_VARIABLE_RUNTIME_ACCESS sizes s name vendor = some answers) ∧
      (LeavesNoTrace c EFI_VARIABLE_RUNTIME_ACCESS vs sizes s name vendor →
        LeavesNoTrace c EFI_VARIABLE_RUNTIME_ACCESS ws sizes t name vendor →
        nextNames c EFI_VARIABLE_RUNTIME_ACCESS sizes s name vendor =
          nextNames c EFI_VARIABLE_RUNTIME_ACCESS sizes t name vendor) ∧
      ((∀ w ∈ ws, w.matches EFI_VARIABLE_RUNTIME_ACCESS = true) →
        (nextNames c EFI_VARIABLE_RUNTIME_ACCESS sizes s name vendor =
            nextNames c EFI_VARIABLE_RUNTIME_ACCESS sizes t name vendor ↔
          LeavesNoTrace c EFI_VARIABLE_RUNTIME_ACCESS vs sizes s name vendor)) := by
  have seenAt : SeenAt EFI_VARIABLE_RUNTIME_ACCESS name vendor [] := ⟨.start empty, by simp⟩
  have split : ∀ us : List EfiVariable, us = [] ++ us := fun _ => rfl
  refine ⟨(split vs ▸ stores).nextNames_returns seenAt.position, ?_, ?_⟩
  · exact nextNames_eq stores stores' same (split vs) (split ws) seenAt seenAt
  · intro allSeen
    rw [filter_eq_self.2 allSeen] at same
    exact nextNames_eq_seen_iff stores (same ▸ stores') (split vs) seenAt

def sampleStore : EfiVarStore :=
  ((efiSetVariable smallConfig (efiVarMemInit smallConfig fun _ => 0) noAuthentication
    sampleArgs).map Prod.snd).getD (efiVarMemInit smallConfig fun _ => 0)

theorem sampleStore_stores : ∃ vs, Stores smallConfig sampleStore vs ∧
    vs.filter (EfiVariable.matches EFI_VARIABLE_RUNTIME_ACCESS) = [] := by
  obtain ⟨s, -, run⟩ := exists_sampleStore
  obtain rfl : sampleStore = s := by
    unfold sampleStore
    rw [run]
    rfl
  unfold efiSetVariable at run
  have outcome := (stores_efiVarMemInit smallConfig fun _ => 0).setOutcome
    (show sampleArgs.Plain from by unfold SetVariableArgs.Plain; decide) run
  obtain ⟨name, vendor, vs, -, -, stores, map⟩ := outcome.success rfl
  refine ⟨vs, stores, filter_eq_nil_iff.2 ?_⟩
  intro v member
  obtain ⟨before, behind, rfl⟩ := append_of_mem member
  have found := variableMap_middle stores.distinct
  have written : newVariable name vendor sampleArgs.attributes sampleArgs.bytes none =
      some ⟨name, vendor, sampleArgs.attributes, 0, sampleArgs.bytes⟩ := rfl
  rw [map, show variableMap [] (name, vendor) = none from rfl, written] at found
  by_cases isKey : v.key = (name, vendor)
  · rw [isKey, Function.update_self, some.injEq] at found
    rw [← found]
    exact show ¬((sampleArgs.attributes &&& EFI_VARIABLE_RUNTIME_ACCESS ==
      EFI_VARIABLE_RUNTIME_ACCESS) = true) by decide
  · rw [Function.update_of_ne isKey] at found
    cases found

theorem nextNames_hidden_sample : ∃ vs, Stores smallConfig sampleStore vs ∧
    (nextNames smallConfig EFI_VARIABLE_RUNTIME_ACCESS [18] sampleStore (fun _ => 0)
          efiGlobalVariableGuid =
        nextNames smallConfig EFI_VARIABLE_RUNTIME_ACCESS [18]
          (efiVarMemInit smallConfig fun _ => 0) (fun _ => 0) efiGlobalVariableGuid ↔
      LeavesNoTrace smallConfig EFI_VARIABLE_RUNTIME_ACCESS vs [18] sampleStore (fun _ => 0)
        efiGlobalVariableGuid) := by
  obtain ⟨vs, stores, hidden⟩ := sampleStore_stores
  exact ⟨vs, stores, (nextNames_hidden smallConfig sampleStore _ vs [] stores
    (stores_efiVarMemInit smallConfig fun _ => 0) hidden (fun _ => 0) efiGlobalVariableGuid
    (by decide) [18]).2.2 (by simp)⟩

/-- The size of a hidden name is asked for in a buffer that is too small, and the name itself is
left in one that is not, where an empty store leaves both as they were. -/
theorem nextNames_shows_hidden : ∃ vs, Stores smallConfig sampleStore vs ∧
    vs.filter (EfiVariable.matches EFI_VARIABLE_RUNTIME_ACCESS) = [] ∧
    (nextNames smallConfig EFI_VARIABLE_RUNTIME_ACCESS [4] sampleStore (fun _ => 0)
        efiGlobalVariableGuid).map (map fun answer => (answer.status, answer.size)) =
      some [(.BUFFER_TOO_SMALL, 18)] ∧
    (nextNames smallConfig EFI_VARIABLE_RUNTIME_ACCESS [4] (efiVarMemInit smallConfig fun _ => 0)
        (fun _ => 0) efiGlobalVariableGuid).map
        (map fun answer => (answer.status, answer.size)) =
      some [(.NOT_FOUND, 4)] ∧
    (nextNames smallConfig EFI_VARIABLE_RUNTIME_ACCESS [18] sampleStore (fun _ => 0)
        efiGlobalVariableGuid).map (map fun answer => (answer.status, u16At answer.name 0)) =
      some [(.NOT_FOUND, 0x42)] ∧
    (nextNames smallConfig EFI_VARIABLE_RUNTIME_ACCESS [18] (efiVarMemInit smallConfig fun _ => 0)
        (fun _ => 0) efiGlobalVariableGuid).map
        (map fun answer => (answer.status, u16At answer.name 0)) =
      some [(.NOT_FOUND, 0)] := by
  obtain ⟨vs, stores, hidden⟩ := sampleStore_stores
  exact ⟨vs, stores, hidden, by decide, by decide, by decide,
    by decide⟩

/-! ## All names -/

section Enumeration

def NameAnswer.Shows (answer : NameAnswer) (v : EfiVariable) : Prop :=
  answer.status = .SUCCESS ∧ answer.size = v.nameSize ∧ HoldsName answer.name answer.vendor v

variable {c : EfiVarConfig} {mask : BitVec 32} {size : Nat}

theorem Stores.enumerates (count : Nat) {s : EfiVarStore} {name : Memory} {vendor : EfiGuid}
    {before behind : List EfiVariable} (short : behind.length < count)
    (stores : Stores c s (before ++ behind)) (position : BufferAt name vendor before)
    (terminated : u16Strnlen name 0 (size / 2) ≠ size / 2)
    (fit : ∀ v ∈ behind, ¬size < v.nameSize) :
    ∃ answers last, nextNames c mask (replicate (answers.length + 1) size) s name vendor =
        some (answers ++ [last]) ∧ last.status = .NOT_FOUND ∧
      Forall₂ NameAnswer.Shows answers (behind.filter (EfiVariable.matches mask)) := by
  induction count generalizing s name vendor before behind with
  | zero => omega
  | succ count ih =>
    obtain ⟨next, run, answer, stores'⟩ := stores.nextName_eq position mask size
    rw [nameAnswer, if_neg terminated] at answer
    obtain ⟨hidden, seen, rfl, -, areHidden, cases⟩ := exists_hidden mask behind
    rw [forall_mem_append] at fit
    rw [walkNames_append areHidden fit.1] at answer
    have unseen : hidden.filter (EfiVariable.matches mask) = [] := by simpa using areHidden
    rw [filter_append, unseen, nil_append]
    rcases cases with ⟨rfl, -⟩ | ⟨v, rest, rfl, isSeen, -⟩
    · exact ⟨[], _, nextNames_cons run answer, rfl, .nil⟩
    rw [forall_mem_cons] at fit
    rw [walkNames, if_neg fit.2.1, if_pos isSeen] at answer
    have split : before ++ (hidden ++ v :: rest) = (before ++ hidden ++ [v]) ++ rest := by simp
    rw [split] at stores'
    obtain ⟨answers, last, later, ends, shows⟩ := ih (by simp at short; omega) stores'
      (.behind (before ++ hidden) v (stringAt_write (writeNames hidden name) v) rfl)
      (terminated_write _ fit.2.1) fit.2.2
    refine ⟨next.answer :: answers, last, ?_, ends, ?_⟩
    · rw [length_cons, replicate_succ, nextNames_cons run answer, later, answer]
      rfl
    · rw [filter_cons_of_pos isSeen, answer]
      exact .cons ⟨rfl, rfl, stringAt_write _ v, rfl⟩ shows

/-- From the empty name on, the calls show the names of the variables that are seen, each once
and in order, and then that there is none left. -/
theorem nextNames_enumerates (c : EfiVarConfig) (s : EfiVarStore) (vs : List EfiVariable)
    (mask : BitVec 32) (name : Memory) (vendor : EfiGuid) (size : Nat) (stores : Stores c s vs)
    (empty : u16At name 0 = 0) (room : 2 ≤ size) (fit : ∀ v ∈ vs, v.nameSize ≤ size) :
    ∃ answers last, nextNames c mask (replicate (answers.length + 1) size) s name vendor =
        some (answers ++ [last]) ∧ last.status = .NOT_FOUND ∧
      Forall₂ NameAnswer.Shows answers (vs.filter (EfiVariable.matches mask)) := by
  have noUnits : u16Units name (size / 2) 0 = [] :=
    u16Units_eq (stringAt_nil.2 empty) (by simp) (by simp)
  refine Stores.enumerates (vs.length + 1) (by omega) (show Stores c s ([] ++ vs) from stores)
    (.start empty) ?_ fun v member => (fit v member).not_gt
  rw [u16Strnlen, noUnits, length_nil]
  omega

theorem nextNames_enumerates_sample : ∃ vs size answers last, Stores smallConfig sampleStore vs ∧
    nextNames smallConfig 0 (replicate (answers.length + 1) size) sampleStore (fun _ => 0)
      efiGlobalVariableGuid = some (answers ++ [last]) ∧
    Forall₂ NameAnswer.Shows answers (vs.filter (EfiVariable.matches 0)) := by
  obtain ⟨vs, stores, -⟩ := sampleStore_stores
  obtain ⟨answers, last, names, -, shows⟩ := nextNames_enumerates smallConfig _ vs 0 (fun _ => 0)
    efiGlobalVariableGuid (2 + (vs.map EfiVariable.nameSize).max?.getD 0) stores (by decide)
    (by omega) fun v member => Nat.le_add_left_of_le (le_max?_getD_of_mem (mem_map_of_mem member))
  exact ⟨vs, _, answers, last, stores, names, shows⟩

end Enumeration

end UBoot
