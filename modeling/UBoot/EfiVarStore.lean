import UBoot.EfiVariable
import UBoot.PaddedRecords

/-!
# The variables in the buffer

A buffer stores variables if they are packed behind its header, no two have the same
name and vendor, and the pointer that is kept is to one of them.  The functions that
look for a variable, insert one and delete one are described by what they do to the
list of stored variables.
-/

namespace UBoot

open List Option Memory Nat UInt16

@[ext]
structure EfiVariable where
  name : U16String
  guid : EfiGuid
  attr : BitVec 32
  time : BitVec 64
  data : List UInt8
  deriving DecidableEq

abbrev EfiKey := U16String × EfiGuid

namespace EfiVariable

def key (v : EfiVariable) : EfiKey := (v.name, v.guid)

/-- The bytes of a `struct efi_var_entry` with its name, and of the data. -/
def bytes (v : EfiVariable) : List UInt8 :=
  leBytes 4 v.data.length ++ (leBytes 4 v.attr.toNat ++ (leBytes 8 v.time.toNat ++
    (v.guid.val ++ ((u16Bytes v.name.val ++ [0, 0]) ++ v.data))))

end EfiVariable

def efiVarFormat : RecordFormat EfiVariable where
  bytes := EfiVariable.bytes
  align := 8
  align_pos := by decide

variable {m : Memory} {a : Nat}

section Strings

@[simp]
theorem length_u16Bytes (units : List UInt16) : (u16Bytes units).length = 2 * units.length := by
  induction units with
  | nil => rfl
  | cons unit units ih =>
    rw [u16Bytes] at ih ⊢
    rw [flatMap_cons, length_append, ih, length_leBytes, length_cons]
    omega

def StringAt (m : Memory) (a : Nat) (units : List UInt16) : Prop :=
  m.read a (2 * (units.length + 1)) = u16Bytes units ++ [0, 0]

variable {unit : UInt16} {units : List UInt16}

theorem stringAt_nil : StringAt m a [] ↔ u16At m a = 0 := by
  have low := (m a).toNat_lt
  have high := (m (a + 1)).toNat_lt
  have zero : ∀ b : UInt8, b = 0 ↔ b.toNat = 0 := fun b => UInt8.toNat_inj.symm
  simp only [StringAt, u16At, readLE, Memory.read, u16Bytes, flatMap_nil,
    nil_append, length_nil, cons.injEq, and_true, leNat, zero]
  rw [← UInt16.toNat_inj, toNat_ofNat', UInt16.toNat_zero]
  omega

theorem stringAt_cons :
    StringAt m a (unit :: units) ↔ u16At m a = unit ∧ StringAt m (a + 2) units := by
  have split : 2 * ((unit :: units).length + 1) = 2 + 2 * (units.length + 1) := by
    rw [length_cons]
    omega
  have bytes : u16Bytes (unit :: units) = leBytes 2 unit.toNat ++ u16Bytes units := rfl
  have first : m.read a 2 = leBytes 2 unit.toNat ↔ u16At m a = unit := by
    have low := (m a).toNat_lt
    have high := (m (a + 1)).toNat_lt
    have bound := unit.toNat_lt
    simp only [u16At, readLE, Memory.read, leBytes, cons.injEq, and_true, leNat]
    rw [← UInt16.toNat_inj, toNat_ofNat', ← UInt8.toNat_inj, ← UInt8.toNat_inj,
      UInt8.toNat_ofNat', UInt8.toNat_ofNat']
    omega
  rw [StringAt, split, read_add, bytes, append_assoc, ← first]
  constructor
  · intro same
    exact append_inj same (by simp)
  · rintro ⟨unitSame, restSame⟩
    rw [unitSame, restSame]

variable (here : StringAt m a units) (noZero : 0 ∉ units)

include here noZero

theorem u16Strlen_eq {rounds : Nat} (enough : units.length < rounds) :
    u16Strlen m rounds a = some units.length := by
  induction units generalizing a rounds with
  | nil =>
    obtain _ | rounds := rounds
    · omega
    rw [u16Strlen, if_pos (stringAt_nil.1 here)]
    rfl
  | cons unit units ih =>
    obtain _ | rounds := rounds
    · omega
    obtain ⟨first, rest⟩ := stringAt_cons.1 here
    rw [mem_cons, not_or] at noZero
    rw [length_cons] at enough
    rw [u16Strlen, if_neg (first ▸ Ne.symm noZero.1), ih rest noZero.2 (by omega)]
    rfl

theorem u16Units_eq {count : Nat} (enough : units.length ≤ count) : u16Units m count a = units := by
  induction units generalizing a count with
  | nil =>
    cases count with
    | zero => rfl
    | succ count => rw [u16Units, if_pos (stringAt_nil.1 here)]
  | cons unit units ih =>
    rw [length_cons] at enough
    obtain _ | count := count
    · omega
    obtain ⟨first, rest⟩ := stringAt_cons.1 here
    rw [mem_cons, not_or] at noZero
    rw [u16Units, first, if_neg (Ne.symm noZero.1), ih rest noZero.2 (by omega)]

/-- The loop compares a name with the one at an address and comes to the end of that. -/
theorem compareLoop_eq {rounds : Nat} (enough : units.length < rounds) {name : List UInt16}
    (nameNoZero : 0 ∉ name) (match_ : Bool) : compareLoop m rounds a name match_ =
      some (match_ && units == name, a + 2 * (units.length + 1)) := by
  induction units generalizing a rounds name match_ with
  | nil =>
    obtain _ | rounds := rounds
    · omega
    have terminated := stringAt_nil.1 here
    rw [compareLoop, if_pos terminated, terminated]
    cases name with
    | nil => simp
    | cons unit name =>
      rw [mem_cons, not_or] at nameNoZero
      simp [nameNoZero.1]
  | cons unit units ih =>
    obtain _ | rounds := rounds
    · omega
    obtain ⟨first, rest⟩ := stringAt_cons.1 here
    rw [mem_cons, not_or] at noZero
    rw [length_cons] at enough
    have tailNoZero : 0 ∉ name.tail := fun member => nameNoZero (mem_of_mem_tail member)
    rw [compareLoop, first, if_neg (Ne.symm noZero.1), ih rest noZero.2 (by omega) tailNoZero]
    cases name with
    | nil =>
      have other : (unit == 0) = false := by simpa using Ne.symm noZero.1
      simp [other]
      omega
    | cons other name =>
      simp only [headD_cons, tail_cons, cons_beq_cons, length_cons,
        Bool.and_assoc, some.injEq, Prod.mk.injEq, true_and]
      omega

end Strings

variable {v : EfiVariable} {c : EfiVarConfig}

namespace EfiVariable

theorem length_bytes (v : EfiVariable) :
    v.bytes.length = 32 + 2 * (v.name.val.length + 1) + v.data.length := by
  simp only [bytes, length_append, length_leBytes, length_u16Bytes, v.guid.property,
    length_cons, length_nil]
  omega

structure Here (m : Memory) (a : Nat) (v : EfiVariable) : Prop where
  length : varLength m a = v.data.length
  attr : varAttr m a = v.attr
  time : varTime m a = v.time
  guid : varGuid m a = v.guid
  name : StringAt m (varName a) v.name.val
  data : m.read (varName a + 2 * (v.name.val.length + 1)) v.data.length = v.data

theorem here_of_at (stored : efiVarFormat.At m a v) (small : v.data.length < 2 ^ 32) :
    Here m a v := by
  have read : m.read a v.bytes.length = v.bytes := stored
  have size : v.bytes.length = 4 + (4 + (8 + (16 + (2 * (v.name.val.length + 1) +
      v.data.length)))) := by
    rw [length_bytes]
    omega
  rw [size, read_add, read_add, read_add, read_add, read_add] at read
  obtain ⟨length, read⟩ := append_inj read (by simp)
  obtain ⟨attr, read⟩ := append_inj read (by simp)
  obtain ⟨time, read⟩ := append_inj read (by simp)
  obtain ⟨guid, read⟩ := append_inj read (by simp [v.guid.property])
  obtain ⟨name, data⟩ := append_inj read (by simp; omega)
  refine ⟨?_, ?_, ?_, ?_, ?_, ?_⟩
  · rw [varLength, readLE, length, leNat_leBytes]
    exact mod_eq_of_lt small
  · rw [varAttr, readLE, attr, leNat_leBytes]
    exact BitVec.eq_of_toNat_eq (by simpa using v.attr.isLt)
  · rw [varTime, readLE, time, leNat_leBytes]
    exact BitVec.eq_of_toNat_eq (by simpa using v.time.isLt)
  · exact Subtype.ext guid
  · exact name
  · exact data

theorem bytes_eq_writes (m : Memory) (a : Nat) (v : EfiVariable) (data1 data2 : List UInt8)
    (data : v.data = data1 ++ data2) :
    (((((((m.writeLE (a + 4) 4 v.attr.toNat).writeLE a 4 v.data.length).writeLE (a + 8) 8
      v.time.toNat).write (a + 16) v.guid.val).write (varName a) (u16Bytes v.name.val ++ [0, 0]))
      |>.write (varName a + 2 * (v.name.val.length + 1)) data1).write
        (varName a + 2 * (v.name.val.length + 1) + data1.length) data2) = m.write a v.bytes := by
  have behind : ∀ {m : Memory} {b : Nat} {first second : List UInt8}, b = a + first.length →
      (m.write a first).write b second = m.write a (first ++ second) := by
    rintro m b first second rfl
    exact write_append m a first second
  have start : (m.writeLE (a + 4) 4 v.attr.toNat).writeLE a 4 v.data.length =
      m.write a (leBytes 4 v.data.length ++ leBytes 4 v.attr.toNat) := by
    rw [← write_prepend, length_leBytes, writeLE, writeLE]
  rw [start, writeLE, behind (by simp), behind (by simp),
    behind (by simp [v.guid.property, varName, sizeofEfiVarEntry]),
    behind (by simp [v.guid.property, varName, sizeofEfiVarEntry]; omega),
    behind (by simp [v.guid.property, varName, sizeofEfiVarEntry]; omega)]
  simp [bytes, data]

namespace Here

variable (here : Here m a v)

include here

theorem next (aligned : 8 ∣ a) :
    roundUp (varName a + 2 * (v.name.val.length + 1) + varLength m a) 8 =
      a + efiVarFormat.size v := by
  have sum : varName a + 2 * (v.name.val.length + 1) + varLength m a = a + v.bytes.length := by
    rw [here.length, length_bytes, varName, sizeofEfiVarEntry]
    omega
  rw [sum]
  exact roundUp_add (by decide) aligned _

theorem strlen {rounds : Nat} (short : v.name.val.length < rounds) :
    u16Strlen m rounds (varName a) = some v.name.val.length :=
  u16Strlen_eq here.name v.name.property short

theorem compare (aligned : 8 ∣ a)
    (short : v.name.val.length < c.bufSize) (guid : EfiGuid) (name : U16String) :
    efiVarMemCompare c m a guid name =
      some (decide (v.key = (name, guid)), a + efiVarFormat.size v) := by
  have same : (v.guid == guid && v.name.val == name.val) = decide (v.key = (name, guid)) := by
    rw [Bool.eq_iff_iff]
    simp only [Bool.and_eq_true, beq_iff_eq, decide_eq_true_eq, key, Prod.mk.injEq]
    rw [Subtype.ext_iff, and_comm]
    exact and_congr_left fun _ => Subtype.ext_iff.symm
  unfold efiVarMemCompare
  rw [compareLoop_eq here.name v.name.property short name.property, here.guid, same]
  simp [here.next aligned]

theorem entryLen (short : v.name.val.length < c.bufSize) :
    efiVarEntryLen c m a = some (efiVarFormat.size v) := by
  have sum : 2 * (v.name.val.length + 1) + varLength m a + sizeofEfiVarEntry = v.bytes.length := by
    rw [here.length, length_bytes, sizeofEfiVarEntry]
    omega
  unfold efiVarEntryLen
  rw [here.strlen short]
  simp only [Option.pure_def, bind_eq_bind, bind_some, sum]
  rfl

theorem oldData_eq (short : v.name.val.length < c.bufSize) : oldData c m a = some v.data := by
  unfold oldData
  rw [here.strlen short]
  simp [here.length, here.data]

theorem unique {w : EfiVariable} (also : Here m a w) : v = w := by
  have name : v.name = w.name := by
    have first := u16Units_eq here.name v.name.property (le_add_right _ w.name.val.length)
    have second := u16Units_eq also.name w.name.property (le_add_left _ v.name.val.length)
    exact Subtype.ext (first.symm.trans second)
  have length : v.data.length = w.data.length := here.length.symm.trans also.length
  apply EfiVariable.ext name
  · exact here.guid.symm.trans also.guid
  · exact here.attr.symm.trans also.attr
  · exact here.time.symm.trans also.time
  · rw [← here.data, ← also.data, name, length]

end Here

end EfiVariable

/-! ## What a buffer stores -/

structure Layout (c : EfiVarConfig) (m : Memory) (vs : List EfiVariable) : Prop where
  packed : efiVarFormat.Packed m sizeofEfiVarFile vs
  length : bufLength m = sizeofEfiVarFile + efiVarFormat.total vs
  fits : efiVarFormat.Fits c.bufSize sizeofEfiVarFile vs

/-- A buffer stores variables with different keys, and the pointer is to one of them. -/
structure Stores (c : EfiVarConfig) (s : EfiVarStore) (vs : List EfiVariable) : Prop extends
    Layout c s.buf vs where
  distinct : (vs.map EfiVariable.key).Nodup
  named : ∀ v ∈ vs, v.name.val ≠ []
  filled : ∀ v ∈ vs, v.data ≠ []
  cached : ∀ current, s.current = some current → ∃ before v behind,
    vs = before ++ v :: behind ∧ current = sizeofEfiVarFile + efiVarFormat.total before

def variableMap (vs : List EfiVariable) (key : EfiKey) : Option EfiVariable :=
  vs.find? fun v => v.key = key

def locate (key : EfiKey) : (a : Nat) → List EfiVariable → Option Nat × Option Nat
  | _, [] => (none, none)
  | a, v :: vs =>
    if v.key = key then (some a, if vs = [] then none else some (a + efiVarFormat.size v))
    else locate key (a + efiVarFormat.size v) vs

variable {vs before behind : List EfiVariable}

section Locate

variable {key : EfiKey}

theorem locate_append (notBefore : ∀ w ∈ before, w.key ≠ key) :
    locate key a (before ++ vs) = locate key (a + efiVarFormat.total before) vs := by
  induction before generalizing a with
  | nil => rfl
  | cons w before ih =>
    rw [forall_mem_cons] at notBefore
    rw [cons_append, locate, if_neg notBefore.1, ih notBefore.2, RecordFormat.total_cons, add_assoc]

theorem locate_none (absent : ∀ v ∈ vs, v.key ≠ key) : locate key a vs = (none, none) := by
  have found : locate key a (vs ++ []) = _ := locate_append absent
  rw [append_nil] at found
  exact found

theorem variableMap_none : variableMap vs key = none ↔ ∀ v ∈ vs, v.key ≠ key := by
  simp [variableMap]

section Distinct

variable (distinct : ((before ++ v :: behind).map EfiVariable.key).Nodup)

include distinct

theorem notBefore_of_distinct : ∀ w ∈ before, w.key ≠ v.key := by
  intro w member same
  rw [map_append, map_cons, nodup_append] at distinct
  exact distinct.2.2 w.key (mem_map_of_mem member) v.key mem_cons_self same

theorem notBehind_of_distinct : ∀ w ∈ behind, w.key ≠ v.key := by
  intro w member same
  rw [map_append, map_cons, nodup_append, nodup_cons] at distinct
  exact distinct.2.1.1 (same ▸ mem_map_of_mem member)

theorem variableMap_middle : variableMap (before ++ v :: behind) v.key = some v := by
  have notBefore := variableMap_none.2 (notBefore_of_distinct distinct)
  unfold variableMap at notBefore ⊢
  rw [find?_append, notBefore, none_or, find?_cons_of_pos (by simp)]

theorem locate_middle :
    locate v.key a (before ++ v :: behind) = (some (a + efiVarFormat.total before),
        if behind = [] then none
        else some (a + efiVarFormat.total before + efiVarFormat.size v)) := by
  rw [locate_append (notBefore_of_distinct distinct), locate, if_pos rfl]

end Distinct

theorem exists_middle (found : variableMap vs key = some v) :
    v.key = key ∧ ∃ before behind, vs = before ++ v :: behind := by
  have member := mem_of_find?_eq_some found
  have same := find?_some found
  rw [decide_eq_true_eq] at same
  exact ⟨same, append_of_mem member⟩

end Locate

namespace Layout

open RecordFormat

theorem aligned (before : List EfiVariable) : 8 ∣ sizeofEfiVarFile + efiVarFormat.total before :=
  Nat.dvd_add (by decide) (align_dvd_total before)

theorem total_lt (layout : Layout c m vs) :
    sizeofEfiVarFile + efiVarFormat.total vs < c.bufSize + 8 :=
  layout.fits.total_lt (by have := c.bufSize_ge; unfold sizeofEfiVarFile; omega)

theorem size_ge (v : EfiVariable) :
    32 + 2 * (v.name.val.length + 1) + v.data.length ≤ efiVarFormat.size v := by
  have enough := length_le_size (f := efiVarFormat) v
  have length := v.length_bytes
  exact length ▸ enough

theorem short (layout : Layout c m vs) (member : v ∈ vs) :
    2 * (v.name.val.length + 1) + v.data.length < c.bufSize := by
  obtain ⟨before, behind, rfl⟩ := append_of_mem member
  have bound := layout.total_lt
  have size := size_ge v
  rw [total_append, total_cons] at bound
  omega

theorem nameShort (layout : Layout c m vs) (member : v ∈ vs) : v.name.val.length < c.bufSize := by
  have bound := layout.short member
  omega

theorem here (layout : Layout c m (before ++ v :: behind)) :
    EfiVariable.Here m (sizeofEfiVarFile + efiVarFormat.total before) v := by
  have stored := (packed_append.1 layout.packed).2.1
  have bound := layout.short (v := v) (by simp)
  have small := c.bufSize_lt
  exact EfiVariable.here_of_at stored (by omega)

theorem atEnd (layout : Layout c m (before ++ v :: behind)) :
    bufLength m ≤ sizeofEfiVarFile + efiVarFormat.total before + efiVarFormat.size v ↔
      behind = [] := by
  rw [layout.length, total_append, total_cons]
  cases behind with
  | nil => simp [add_assoc]
  | cons w behind =>
    have size := size_ge w
    rw [total_cons]
    simp only [reduceCtorEq, iff_false]
    omega

theorem findLoop_eq (layout : Layout c m (before ++ vs)) (nonempty : vs ≠ []) {rounds : Nat}
    (enough : vs.length ≤ rounds) (guid : EfiGuid) (name : U16String) :
    findLoop c m guid name rounds (sizeofEfiVarFile + efiVarFormat.total before) =
      some (locate (name, guid) (sizeofEfiVarFile + efiVarFormat.total before) vs) := by
  induction vs generalizing before rounds with
  | nil => exact absurd rfl nonempty
  | cons v vs ih =>
    rw [length_cons] at enough
    obtain _ | rounds := rounds
    · omega
    have next : sizeofEfiVarFile + efiVarFormat.total before + efiVarFormat.size v =
        sizeofEfiVarFile + efiVarFormat.total (before ++ [v]) := by
      rw [total_append, total_cons, total_nil]
      omega
    rw [findLoop, layout.here.compare (aligned before) (layout.nameShort (by simp))]
    simp only [Option.pure_def, bind_eq_bind, bind_some, decide_eq_true_eq]
    rw [locate, beforeLast]
    simp only [layout.atEnd]
    split
    · split <;> rfl
    split
    · next last => rw [last, locate]
    · next more =>
      rw [next]
      exact ih (by simpa using layout) more (by omega)

theorem length_le_total (vs : List EfiVariable) : vs.length ≤ efiVarFormat.total vs := by
  induction vs with
  | nil => exact le_rfl
  | cons v vs ih =>
    have size := size_ge v
    rw [length_cons, total_cons]
    omega

theorem length_lt (layout : Layout c m vs) : vs.length < c.bufSize := by
  have bound := layout.total_lt
  have sizes := length_le_total vs
  unfold sizeofEfiVarFile at bound
  omega

theorem scanVariables_eq (layout : Layout c m vs) (guid : EfiGuid) (name : U16String) :
    scanVariables c m guid name = some (locate (name, guid) sizeofEfiVarFile vs) := by
  unfold scanVariables
  rw [layout.length]
  cases vs with
  | nil => simp [locate]
  | cons v vs =>
    have size := size_ge v
    have found : findLoop c m guid name c.bufSize (sizeofEfiVarFile + efiVarFormat.total []) = _ :=
      findLoop_eq layout (by simp) layout.length_lt.le guid name
    rw [if_pos (by rw [total_cons]; omega)]
    exact found

theorem unique {ws : List EfiVariable} (layout : Layout c m vs) (also : Layout c m ws) :
    vs = ws := by
  have split : ∀ before, Layout c m (before ++ vs) → Layout c m (before ++ ws) → vs = ws := by
    clear layout also
    induction vs generalizing ws with
    | nil =>
      intro before layout also
      cases ws with
      | nil => rfl
      | cons w ws =>
        have size := size_ge w
        have same := layout.length.symm.trans also.length
        rw [total_append, total_append, total_cons, total_nil] at same
        omega
    | cons v vs ih =>
      intro before layout also
      cases ws with
      | nil =>
        have size := size_ge v
        have same := layout.length.symm.trans also.length
        rw [total_append, total_append, total_cons, total_nil] at same
        omega
      | cons w ws =>
        obtain rfl := layout.here.unique also.here
        rw [ih (before ++ [v]) (by simpa using layout) (by simpa using also)]
  exact split [] layout also

/-! ## Inserting and deleting -/

theorem bufLength_setBufLength {length : Nat} (small : length < 2 ^ 32) :
    bufLength (setBufLength m length) = length := by
  rw [bufLength, setBufLength, readLE_writeLE_same, uint32_of_nat small]
  exact mod_eq_of_lt small

theorem setBufLength_of_ge {length : Int} {x : Nat} (behind : sizeofEfiVarFile ≤ x) :
    setBufLength m length x = m x := by
  unfold sizeofEfiVarFile at behind
  exact writeLE_of_disjoint (by omega)

theorem updateCrc_of_ge {x : Nat} (behind : sizeofEfiVarFile ≤ x) : updateCrc c m x = m x := by
  unfold sizeofEfiVarFile at behind
  exact writeLE_of_disjoint (by omega)

theorem bufLength_updateCrc (c : EfiVarConfig) (m : Memory) :
    bufLength (updateCrc c m) = bufLength m :=
  readLE_writeLE_of_disjoint (by omega)

theorem of_packed {m' : Memory} (packed : efiVarFormat.Packed m sizeofEfiVarFile vs)
    (same : ∀ x, sizeofEfiVarFile ≤ x → m' x = m x)
    (length : bufLength m' = sizeofEfiVarFile + efiVarFormat.total vs)
    (fits : efiVarFormat.Fits c.bufSize sizeofEfiVarFile vs) : Layout c m' vs :=
  ⟨packed.transfer fun i _ => same _ (by omega), length, fits⟩

variable {s s' : EfiVarStore}

theorem ins_end (a : Nat) (v : EfiVariable) :
    varName a + 2 * (v.name.val.length + 1) + v.data.length = a + v.bytes.length := by
  rw [v.length_bytes, varName, sizeofEfiVarEntry]
  omega

theorem ins (layout : Layout c s.buf vs) (v : EfiVariable) {data1 data2 : List UInt8}
    (data : v.data = data1 ++ data2) (room : bufLength s.buf + v.bytes.length ≤ c.bufSize) :
    ∃ s', efiVarMemIns c s v.name v.guid v.attr data1 data2 v.time = some (.SUCCESS, s') ∧
      Layout c s'.buf (vs ++ [v]) ∧ s'.current = s.current := by
  have lengths : data1.length + data2.length = v.data.length := by rw [data, length_append]
  have small := c.bufSize_lt
  have wide : 2 ^ 32 ≤ 2 ^ c.addressBits := Nat.pow_le_pow_right (by decide) c.addressBits_ge
  have rounded : roundUp (bufLength s.buf + v.bytes.length) 8 =
      sizeofEfiVarFile + efiVarFormat.total (vs ++ [v]) := by
    rw [layout.length, roundUp_add (by decide) (aligned vs), total_append, total_cons, total_nil,
      add_zero, add_assoc]
    rfl
  have near := roundUp_lt (n := bufLength s.buf + v.bytes.length) (a := 8) (by decide)
  unfold efiVarMemIns
  simp only [lengths, ins_end]
  rw [mod_eq_of_lt (by omega), if_neg (by omega), if_neg (by omega),
    EfiVariable.bytes_eq_writes s.buf (bufLength s.buf) v data1 data2 data]
  refine ⟨_, rfl, ?_, rfl⟩
  rw [rounded] at near ⊢
  have written := layout.packed.add (x := v)
  rw [← layout.length] at written
  apply of_packed written
  · intro x behind
    exact (updateCrc_of_ge behind).trans (setBufLength_of_ge behind)
  · rw [bufLength_updateCrc, bufLength_setBufLength (by omega)]
  · refine fits_append.2 ⟨layout.fits, ?_, trivial⟩
    rw [← layout.length]
    exact room

theorem ins_refused (v : EfiVariable) {data1 data2 : List UInt8}
    (data : v.data = data1 ++ data2) (room : c.bufSize < bufLength s.buf + v.bytes.length) :
    efiVarMemIns c s v.name v.guid v.attr data1 data2 v.time =
      if c.bufSize < (bufLength s.buf + v.bytes.length) % 2 ^ c.addressBits then
        some (.OUT_OF_RESOURCES, s)
      else none := by
  have lengths : data1.length + data2.length = v.data.length := by rw [data, length_append]
  unfold efiVarMemIns
  simp only [lengths, ins_end]
  rw [if_pos room]

theorem del (layout : Layout c s.buf (before ++ v :: behind)) :
    ∃ s', efiVarMemDel c s (some (sizeofEfiVarFile + efiVarFormat.total before)) = some s' ∧
      Layout c s'.buf (before ++ behind) ∧
      s'.current = s.current.filter fun current =>
        !decide (sizeofEfiVarFile + efiVarFormat.total before ≤ current) := by
  have bound := layout.total_lt
  have small := c.bufSize_lt
  have length := layout.length
  rw [total_append, total_cons] at bound length
  unfold efiVarMemDel
  simp only [Option.pure_def, bind_eq_bind]
  rw [layout.here.strlen (layout.nameShort (by simp)), bind_some,
    layout.here.next (aligned before), if_neg (by omega)]
  refine ⟨_, rfl, ?_, rfl⟩
  have shorter : (bufLength s.buf : Int) - ((sizeofEfiVarFile + efiVarFormat.total before +
      efiVarFormat.size v - (sizeofEfiVarFile + efiVarFormat.total before) : Nat) : Int) =
      (sizeofEfiVarFile + efiVarFormat.total (before ++ behind) : Nat) := by
    rw [total_append]
    omega
  have moved : bufLength s.buf - (sizeofEfiVarFile + efiVarFormat.total before +
      efiVarFormat.size v) = efiVarFormat.total behind := by omega
  rw [shorter, moved]
  have smaller : sizeofEfiVarFile + efiVarFormat.total (before ++ behind) < 2 ^ 32 := by omega
  have packed : efiVarFormat.Packed
      (setBufLength s.buf (sizeofEfiVarFile + efiVarFormat.total (before ++ behind) : Nat))
      sizeofEfiVarFile (before ++ v :: behind) :=
    layout.packed.transfer fun i _ => setBufLength_of_ge (by omega)
  apply of_packed packed.remove
  · intro x inside
    exact updateCrc_of_ge inside
  · rw [bufLength_updateCrc]
    refine Eq.trans ?_ (bufLength_setBufLength (m := s.buf) smaller)
    apply readLE_congr
    intro i inside
    unfold sizeofEfiVarFile
    exact copy_of_disjoint (by omega)
  · exact layout.fits.sublist (by simp) le_rfl

end Layout

namespace Stores

variable {s : EfiVarStore}

variable (stores : Stores c s vs) (guid : EfiGuid)

include stores guid

/-- Looking for a variable gives what the search from the start of the buffer gives. -/
theorem efiVarMemFind_eq {name : U16String} (named : name.val ≠ []) :
    efiVarMemFind c s guid name = some (.scanned s (locate (name, guid) sizeofEfiVarFile vs)) := by
  unfold efiVarMemFind
  rw [if_neg named]
  have scanned : (scanVariables c s.buf guid name).map (EfiVarFound.scanned s) =
      some (.scanned s (locate (name, guid) sizeofEfiVarFile vs)) := by
    rw [stores.scanVariables_eq guid name, map_some]
  cases isCurrent : s.current with
  | none => exact scanned
  | some current =>
    obtain ⟨before, v, behind, rfl, rfl⟩ := stores.cached current isCurrent
    simp only
    rw [stores.here.compare (Layout.aligned before) (stores.nameShort (by simp))]
    simp only [Option.pure_def, bind_eq_bind, bind_some, decide_eq_true_eq]
    split
    · next same =>
      rw [← same, locate_middle stores.distinct, beforeLast]
      simp [stores.atEnd, EfiVarFound.scanned, ← isCurrent]
    · exact scanned

theorem find (name : U16String) :
    ∃ found, efiVarMemFind c s guid name = some found ∧ Stores c found.store vs ∧
      found.store.buf = s.buf ∧
      (name.val ≠ [] → found.var = (locate (name, guid) sizeofEfiVarFile vs).1) := by
  by_cases named : name.val = []
  · refine ⟨⟨none, beforeLast (bufLength s.buf) sizeofEfiVarFile, s⟩, ?_, stores, rfl, absurd named⟩
    unfold efiVarMemFind
    rw [if_pos named]
  refine ⟨_, stores.efiVarMemFind_eq guid named, ?_, rfl, fun _ => rfl⟩
  refine ⟨stores.toLayout, stores.distinct, stores.named, stores.filled, ?_⟩
  intro current isCurrent
  cases found : variableMap vs (name, guid) with
  | none =>
    rw [locate_none (variableMap_none.1 found)] at isCurrent
    exact stores.cached current isCurrent
  | some v =>
    obtain ⟨same, before, behind, rfl⟩ := exists_middle found
    rw [← same, locate_middle stores.distinct] at isCurrent
    exact ⟨before, v, behind, rfl, (some.inj isCurrent).symm⟩

theorem find_eq_scan (name : U16String) :
    (efiVarMemFind c s guid name).map (fun found => (found.var, found.next)) =
      (efiVarMemFind c { s with current := none } guid name).map
        fun found => (found.var, found.next) := by
  have cleared : Stores c { s with current := none } vs :=
    ⟨stores.toLayout, stores.distinct, stores.named, stores.filled, by simp⟩
  by_cases named : name.val = []
  · unfold efiVarMemFind
    rw [if_pos named, if_pos named]
    rfl
  · rw [stores.efiVarMemFind_eq guid named, cleared.efiVarMemFind_eq guid named]
    rfl

end Stores

end UBoot
