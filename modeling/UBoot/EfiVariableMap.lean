import UBoot.EfiVarStore

/-!
# EFI variables are a finite map

Whatever is done to the variables from the start on, the buffer stores a list of
variables with different names or vendors.  A call that sets a variable without
authentication changes the map from names and vendors to variables at one place, or
returns an error and leaves the buffer alone.
-/

namespace UBoot

open List RecordFormat Option Function

variable {v : EfiVariable} {vs before behind : List EfiVariable}

section Map

variable {key : EfiKey}

theorem variableMap_add (absent : ∀ w ∈ vs, w.key ≠ v.key) :
    variableMap (vs ++ [v]) = update (variableMap vs) v.key (some v) := by
  have none := variableMap_none.2 absent
  funext key
  by_cases same : key = v.key
  · subst same
    rw [update_self]
    unfold variableMap at none ⊢
    rw [find?_append, none, none_or, find?_cons_of_pos (by simp)]
  rw [update_of_ne same]
  unfold variableMap
  rw [find?_append, find?_cons_of_neg (by simpa using Ne.symm same), find?_nil, or_none]

theorem variableMap_remove (distinct : ((before ++ v :: behind).map EfiVariable.key).Nodup) :
    variableMap (before ++ behind) = update (variableMap (before ++ v :: behind)) v.key none := by
  funext key
  by_cases same : key = v.key
  · subst same
    rw [update_self, variableMap_none]
    intro w member
    rcases mem_append.1 member with inBefore | inBehind
    · exact notBefore_of_distinct distinct w inBefore
    · exact notBehind_of_distinct distinct w inBehind
  · rw [update_of_ne same]
    unfold variableMap
    rw [find?_append, find?_append, find?_cons_of_neg (by simpa using Ne.symm same)]

end Map

variable {c : EfiVarConfig} {s s' : EfiVarStore}

namespace Stores

theorem cached_before {current : Nat} {rest : List EfiVariable}
    (stores : Stores c s (before ++ rest)) (isCurrent : s.current = some current)
    (less : current < sizeofEfiVarFile + efiVarFormat.total before) :
    ∃ first w second, before = first ++ w :: second ∧
      current = sizeofEfiVarFile + efiVarFormat.total first := by
  obtain ⟨first, w, second, split, rfl⟩ := stores.cached current isCurrent
  rcases append_eq_append_iff.1 split with ⟨more, rfl, -⟩ | ⟨more, rfl, behindSplit⟩
  · rw [total_append] at less
    omega
  cases more with
  | nil => simp at less
  | cons x more =>
    cases behindSplit
    exact ⟨first, w, more, rfl, rfl⟩

theorem add (stores : Stores c s vs) (layout : Layout c s'.buf (vs ++ [v]))
    (current : s'.current = s.current) (absent : ∀ w ∈ vs, w.key ≠ v.key)
    (named : v.name.val ≠ []) (filled : v.data ≠ []) : Stores c s' (vs ++ [v]) := by
  refine ⟨layout, ?_, ?_, ?_, ?_⟩
  · rw [map_append, map_singleton, nodup_append]
    refine ⟨stores.distinct, by simp, ?_⟩
    rintro key inOld other isNew rfl
    obtain ⟨w, member, rfl⟩ := mem_map.1 inOld
    exact absent w member (mem_singleton.1 isNew)
  · simpa [or_imp, forall_and] using ⟨stores.named, named⟩
  · simpa [or_imp, forall_and] using ⟨stores.filled, filled⟩
  · intro a isCurrent
    rw [current] at isCurrent
    obtain ⟨before, w, behind, rfl, start⟩ := stores.cached a isCurrent
    exact ⟨before, w, behind ++ [v], by simp, start⟩

/-- A variable is taken out, and another one with its key may be behind the others. -/
theorem takeOut {more : List EfiVariable} (stores : Stores c s (before ++ v :: behind))
    (layout : Layout c s'.buf (before ++ (behind ++ more)))
    (current : s'.current = s.current.filter fun current =>
      !decide (sizeofEfiVarFile + efiVarFormat.total before ≤ current))
    (inPlace : more = [] ∨ ∃ w, more = [w] ∧ w.key = v.key ∧ w.data ≠ []) :
    Stores c s' (before ++ (behind ++ more)) := by
  have named := stores.named
  have filled := stores.filled
  have distinct := stores.distinct
  have notBefore := notBefore_of_distinct distinct
  have notBehind := notBehind_of_distinct distinct
  have rest : ((before ++ behind).map EfiVariable.key).Nodup :=
    distinct.sublist (List.Sublist.map _ (by simp))
  have sameName : ∀ w ∈ more, w.name = v.name ∧ w.data ≠ [] := by
    intro w member
    obtain rfl | ⟨x, rfl, same, data⟩ := inPlace
    · simp at member
    · obtain rfl := mem_singleton.1 member
      exact ⟨congrArg Prod.fst same, data⟩
  refine ⟨layout, ?_, ?_, ?_, ?_⟩
  · obtain rfl | ⟨w, rfl, same, -⟩ := inPlace
    · rwa [append_nil]
    rw [← append_assoc, map_append, map_singleton, nodup_append]
    refine ⟨rest, by simp, ?_⟩
    rintro key inOld other isNew rfl
    obtain ⟨x, member, rfl⟩ := mem_map.1 inOld
    rw [mem_singleton, same] at isNew
    rcases mem_append.1 member with inBefore | inBehind
    · exact notBefore x inBefore isNew
    · exact notBehind x inBehind isNew
  · intro w member
    simp only [mem_append] at member
    rcases member with inBefore | inBehind | inMore
    · exact named w (by simp [inBefore])
    · exact named w (by simp [inBehind])
    · rw [(sameName w inMore).1]
      exact named v (by simp)
  · intro w member
    simp only [mem_append] at member
    rcases member with inBefore | inBehind | inMore
    · exact filled w (by simp [inBefore])
    · exact filled w (by simp [inBehind])
    · exact (sameName w inMore).2
  · intro a isCurrent
    rw [current, filter_eq_some_iff] at isCurrent
    obtain ⟨was, less⟩ := isCurrent
    obtain ⟨first, w, second, rfl, start⟩ := stores.cached_before was (by simpa using less)
    exact ⟨first, w, second ++ (behind ++ more), by simp, start⟩

end Stores

/-! ## Writing a variable -/

def writtenVariable (name : U16String) (vendor : EfiGuid) (attributes : BitVec 32)
    (append : Bool) (write : VariableWrite) (old : Option EfiVariable) : Option EfiVariable :=
  match old with
  | none =>
    if write.delete then none
    else some ⟨name, vendor, attributes, write.time, write.data⟩
  | some v =>
    if write.delete then none
    else if append then
      some ⟨name, vendor, attributes &&& ~~~EFI_VARIABLE_APPEND_WRITE, write.time,
        v.data ++ write.data⟩
    else some ⟨name, vendor, attributes, write.time, write.data⟩

variable {vs : List EfiVariable} {name : U16String} {vendor : EfiGuid} {attributes : BitVec 32}
  {status : EfiVarStatus}

section Write

variable {append : Bool} {write : VariableWrite}

theorem Layout.ins_total (layout : Layout c s.buf vs) (v : EfiVariable)
    {data1 data2 : List UInt8} (data : v.data = data1 ++ data2) :
    efiVarMemIns c s v.name v.guid v.attr data1 data2 v.time = none ∧
        2 ^ c.addressBits ≤ bufLength s.buf + v.bytes.length ∨
      ∃ status t, efiVarMemIns c s v.name v.guid v.attr data1 data2 v.time = some (status, t) ∧
        (status = .SUCCESS ∧ Layout c t.buf (vs ++ [v]) ∧ t.current = s.current ∨
          status = .OUT_OF_RESOURCES ∧ t = s) := by
  by_cases room : bufLength s.buf + v.bytes.length ≤ c.bufSize
  · obtain ⟨t, ran, layout', current⟩ := layout.ins v data room
    exact .inr ⟨_, t, ran, .inl ⟨rfl, layout', current⟩⟩
  rw [Layout.ins_refused v data (by omega)]
  split
  · exact .inr ⟨_, s, rfl, .inr ⟨rfl, rfl⟩⟩
  next wraps =>
  refine .inl ⟨rfl, ?_⟩
  by_contra less
  rw [Nat.mod_eq_of_lt (by omega)] at wraps
  omega

variable {before behind : List EfiVariable}

theorem Stores.replace {t : EfiVarStore} {v : EfiVariable}
    (more : List EfiVariable) (stores : Stores c s (before ++ v :: behind))
    (layout : Layout c t.buf (before ++ v :: (behind ++ more))) (current : t.current = s.current)
    (inPlace : more = [] ∨ ∃ w, more = [w] ∧ w.key = v.key ∧ w.data ≠ []) :
    ∃ s', efiVarMemDel c t (some (sizeofEfiVarFile + efiVarFormat.total before)) = some s' ∧
      Stores c s' (before ++ (behind ++ more)) := by
  obtain ⟨s', deleted, layout', current'⟩ := layout.del
  rw [current] at current'
  exact ⟨s', deleted, stores.takeOut layout' current' inPlace⟩

theorem variableMap_replace {v w : EfiVariable}
    (distinct : ((before ++ v :: behind).map EfiVariable.key).Nodup) (same : w.key = v.key) :
    variableMap (before ++ (behind ++ [w])) =
      update (variableMap (before ++ v :: behind)) v.key (some w) := by
  have absent : ∀ x ∈ before ++ behind, x.key ≠ w.key := by
    rw [same, ← variableMap_none, variableMap_remove distinct, update_self]
  rw [← append_assoc, variableMap_add absent, variableMap_remove distinct, same, update_idem]

/-- What a call that does not delete inserts: the given data, or the old data with the given
data behind it. -/
theorem Stores.insertion (stores : Stores c s vs) (name : U16String) (vendor : EfiGuid)
    (attributes : BitVec 32) (append : Bool) {write : VariableWrite}
    (keeps : write.delete = false) :
    ∃ (w : EfiVariable) (data1 data2 : List UInt8), w.data = data1 ++ data2 ∧
      w.key = (name, vendor) ∧ writtenVariable name vendor attributes append write
        (variableMap vs (name, vendor)) = some w ∧
      insertVariable c s (locate (name, vendor) sizeofEfiVarFile vs).1 name vendor attributes
        append write = efiVarMemIns c s w.name w.guid w.attr data1 data2 w.time ∧
      (w.data = write.data ∧ (append = false ∨ variableMap vs (name, vendor) = none) ∨
        ∃ v ∈ vs, w.data = v.data ++ write.data) := by
  cases found : variableMap vs (name, vendor) with
  | none =>
    refine ⟨⟨name, vendor, attributes, write.time, write.data⟩, write.data, [],
      (append_nil _).symm, rfl, by simp [writtenVariable, keeps], ?_, .inl ⟨rfl, .inr rfl⟩⟩
    rw [locate_none (variableMap_none.1 found)]
    simp [insertVariable, keeps]
  | some v =>
    obtain ⟨same, before, behind, rfl⟩ := exists_middle found
    have located := locate_middle stores.distinct (a := sizeofEfiVarFile)
    rw [same] at located
    rw [located]
    cases append with
    | true =>
      have old := stores.here.oldData_eq (stores.nameShort (by simp))
      refine ⟨⟨name, vendor, attributes &&& ~~~EFI_VARIABLE_APPEND_WRITE, write.time,
        v.data ++ write.data⟩, v.data, write.data, rfl, rfl, by simp [writtenVariable, keeps], ?_,
        .inr ⟨v, by simp, rfl⟩⟩
      simp [insertVariable, keeps, old]
    | false =>
      refine ⟨⟨name, vendor, attributes, write.time, write.data⟩, write.data, [],
        (append_nil _).symm, rfl, by simp [writtenVariable, keeps], ?_, .inl ⟨rfl, .inl rfl⟩⟩
      simp [insertVariable, keeps]

/-- Writing a variable changes the map at one place, or fails and changes nothing.  It goes
wrong if sizes wrap, and if a variable is deleted that does not exist. -/
theorem Stores.writeVariable_total (stores : Stores c s vs) (named : name.val ≠ [])
    (filled : write.delete = false →
      append = false ∨ variableMap vs (name, vendor) = none → write.data ≠ [])
    {run : Option (EfiVarStatus × EfiVarStore)}
    (ran : writeVariable c s (locate (name, vendor) sizeofEfiVarFile vs).1 name vendor attributes
      append write = run) :
    run = none ∧ (write.delete = true ∧ variableMap vs (name, vendor) = none ∨ 2 ^ c.addressBits ≤
        2 * c.bufSize + 64 + 2 * name.val.length + write.data.length) ∨
      ∃ status s', run = some (status, s') ∧ (status ≠ .SUCCESS ∧ s' = s ∨
        status = .SUCCESS ∧ ∃ vs', Stores c s' vs' ∧
          variableMap vs' = update (variableMap vs) (name, vendor) (writtenVariable name
            vendor attributes append write (variableMap vs (name, vendor)))) := by
  subst ran
  cases delete : write.delete with
  | true =>
    cases found : variableMap vs (name, vendor) with
    | none =>
      rw [locate_none (variableMap_none.1 found)]
      exact .inl ⟨by simp [writeVariable, insertVariable, delete], .inl ⟨rfl, rfl⟩⟩
    | some v =>
      obtain ⟨same, before, behind, rfl⟩ := exists_middle found
      obtain ⟨t, deleted, stores'⟩ := stores.replace (t := s) []
        (by simpa using stores.toLayout) rfl (.inl rfl)
      rw [append_nil] at stores'
      refine .inr ⟨.SUCCESS, t, ?_, .inr ⟨rfl, _, stores', ?_⟩⟩
      · rw [← same, locate_middle stores.distinct]
        simp [writeVariable, insertVariable, delete, deleted]
      · rw [variableMap_remove stores.distinct, same, writtenVariable, if_pos delete]
  | false =>
    have bound := stores.total_lt
    have used := stores.length
    obtain ⟨w, data1, data2, data, sameKey, written, inserts, kind⟩ :=
      stores.insertion name vendor attributes append delete
    have nonempty : w.data ≠ [] := by
      rcases kind with ⟨same, fresh⟩ | ⟨v, member, same⟩
      · rw [same]
        exact filled delete fresh
      · simp [same, stores.filled v member]
    rw [writeVariable, inserts]
    rcases stores.toLayout.ins_total w data with
      ⟨lost, wraps⟩ | ⟨_, t, inserted, ⟨rfl, layout, current⟩ | ⟨rfl, rfl⟩⟩
    · rw [EfiVariable.length_bytes, (Prod.mk.inj sameKey).1] at wraps
      rw [lost]
      refine .inl ⟨rfl, .inr ?_⟩
      rcases kind with ⟨same, -⟩ | ⟨v, member, same⟩
      · rw [same] at wraps
        omega
      · have short := stores.short member
        rw [same, length_append] at wraps
        omega
    · rw [inserted, written]
      cases found : variableMap vs (name, vendor) with
      | none =>
        have absent := variableMap_none.1 found
        rw [locate_none absent]
        rw [← sameKey] at absent ⊢
        rw [← (Prod.mk.inj sameKey).1] at named
        exact .inr ⟨.SUCCESS, t, rfl, .inr ⟨rfl, _,
          stores.add layout current absent named nonempty, variableMap_add absent⟩⟩
      | some v =>
        obtain ⟨same, before, behind, rfl⟩ := exists_middle found
        rw [← same] at sameKey ⊢
        rw [append_assoc] at layout
        obtain ⟨t', deleted, stores'⟩ :=
          stores.replace [w] layout current (.inr ⟨w, rfl, sameKey, nonempty⟩)
        refine .inr ⟨.SUCCESS, t', ?_, .inr ⟨rfl, _, stores',
          variableMap_replace stores.distinct sameKey⟩⟩
        rw [locate_middle stores.distinct]
        simp [deleted]
    · rw [inserted]
      exact .inr ⟨.OUT_OF_RESOURCES, _, rfl, .inl ⟨by simp, rfl⟩⟩

end Write

/-! ## Setting a variable -/

def SetVariableArgs.Plain (args : SetVariableArgs) : Prop :=
  hasAttribute args.attributes EFI_VARIABLE_TIME_BASED_AUTHENTICATED_WRITE_ACCESS = false

def newVariable (name : U16String) (vendor : EfiGuid) (attributes : BitVec 32)
    (data : List UInt8) (old : Option EfiVariable) : Option EfiVariable :=
  if hasAttribute attributes EFI_VARIABLE_APPEND_WRITE then
    match old with
    | none => if data = [] then none else some ⟨name, vendor, attributes, 0, data⟩
    | some v =>
      some ⟨name, vendor, attributes &&& ~~~EFI_VARIABLE_APPEND_WRITE, v.time, v.data ++ data⟩
  else if data = [] ∨ attributes = 0 then none
  else
    match old with
    | none => some ⟨name, vendor, attributes, 0, data⟩
    | some v => some ⟨name, vendor, attributes, v.time, data⟩

section Set

variable {s s' t : EfiVarStore} {args : SetVariableArgs} {auth : EfiAuthentication} {roCheck : Bool}
  {write write' : VariableWrite}
  {initSecureState : EfiVarStore → Option (EfiVarStatus × EfiVarStore)}

theorem ok_of_check {ε α : Type} {p : Prop} [Decidable p] {e : ε} {rest : Except ε α} {a : α}
    (passed : (if p then .error e else rest) = .ok a) : ¬p ∧ rest = .ok a := by
  split at passed
  · cases passed
  · next notFailed => exact ⟨notFailed, passed⟩

theorem setvariableAllowed_ok (allowed : setvariableAllowed args = .ok (name, vendor)) :
    args.name = some name ∧ args.vendor = some vendor ∧ name.val ≠ [] ∧
      args.bytes.length = args.dataSize := by
  unfold setvariableAllowed at allowed
  split at allowed
  · next isName isVendor =>
    obtain ⟨named, allowed⟩ := ok_of_check allowed
    obtain ⟨given, allowed⟩ := ok_of_check allowed
    obtain ⟨-, allowed⟩ := ok_of_check allowed
    obtain ⟨-, allowed⟩ := ok_of_check allowed
    obtain ⟨-, allowed⟩ := ok_of_check allowed
    obtain ⟨-, allowed⟩ := ok_of_check allowed
    cases allowed
    refine ⟨isName, isVendor, named, ?_⟩
    unfold SetVariableArgs.bytes
    cases isData : args.data with
    | none =>
      have empty : args.dataSize = 0 := by simpa [isData] using given
      rw [empty, length_nil]
    | some data => exact Memory.length_read _ _ _
  · cases allowed

theorem setvariableAllowed_error (refused : setvariableAllowed args = .error status) :
    status ≠ .SUCCESS := by
  unfold setvariableAllowed at refused
  rintro rfl
  split at refused
  · repeat' split at refused
    all_goals cases refused
  · cases refused

theorem lookUpAll_stores (stores : Stores c s vs) (reads : List (EfiGuid × U16String)) :
    ∃ t, lookUpAll c s reads = some t ∧ Stores c t vs ∧ t.buf = s.buf := by
  induction reads generalizing s with
  | nil => exact ⟨s, rfl, stores, rfl⟩
  | cons read reads ih =>
    obtain ⟨found, finds, stores', sameBuf, -⟩ := stores.find read.1 read.2
    obtain ⟨t, rest, stores'', sameBuf'⟩ := ih stores'
    refine ⟨t, ?_, stores'', sameBuf'.trans sameBuf⟩
    rw [lookUpAll, finds]
    exact rest

theorem authenticate_total (stores : Stores c s vs) (auth : EfiAuthentication)
    (varType : EfiAuthVarType) (attributes : BitVec 32) (write : VariableWrite) :
    ∃ checked t, authenticate c s auth varType attributes write = some (checked, t) ∧
      Stores c t vs ∧ t.buf = s.buf ∧
      (hasAttribute attributes EFI_VARIABLE_TIME_BASED_AUTHENTICATED_WRITE_ACCESS = false →
        checked = .error .INVALID_PARAMETER ∨ checked = .ok write ∧ varType ≠ .PK) ∧
      ∀ write', checked = .ok write' →
        write' = write ∨ (write'.delete = false → write'.data ≠ []) := by
  unfold authenticate
  simp only
  split
  · exact ⟨_, _, rfl, stores, rfl, fun _ => .inl rfl, by simp⟩
  split
  · next notMandatory notTimeBased =>
    refine ⟨_, _, rfl, stores, rfl, fun _ => .inr ⟨rfl, ?_⟩, ?_⟩
    · rintro rfl
      simp_all [EfiAuthVarType.mandatory]
    · intro write' same
      exact .inl (Except.ok.inj same).symm
  split
  · exact ⟨_, _, rfl, stores, rfl, fun _ => .inl rfl, by simp⟩
  next timeBased _ =>
  have asked : hasAttribute attributes
      EFI_VARIABLE_TIME_BASED_AUTHENTICATED_WRITE_ACCESS ≠ false := by simpa using timeBased
  obtain ⟨looked, looks, stores', sameBuf⟩ := lookUpAll_stores stores auth.reads
  simp only [looks, Option.pure_def, bind_eq_bind, bind_some]
  split
  all_goals refine ⟨_, _, rfl, stores', sameBuf, fun plain => absurd plain asked, by simp⟩

theorem Stores.located (stores : Stores c s vs) (key : EfiKey) :
    variableMap vs key = none ∧ (locate key sizeofEfiVarFile vs).1 = none ∨
      ∃ v a, variableMap vs key = some v ∧ (locate key sizeofEfiVarFile vs).1 = some a ∧
        EfiVariable.Here s.buf a v := by
  cases found : variableMap vs key with
  | none => exact .inl ⟨rfl, by rw [locate_none (variableMap_none.1 found)]⟩
  | some v =>
    obtain ⟨rfl, before, behind, rfl⟩ := exists_middle found
    exact .inr ⟨v, _, rfl, by rw [locate_middle stores.distinct], stores.here⟩

section Checks

variable {m : Memory} {var : Option Nat} {varType : EfiAuthVarType} {dataSize : Nat}
  {append delete : Bool} {time : BitVec 64}

theorem checkAttributes_ok
    (passed : checkAttributes c m var varType attributes dataSize append delete roCheck =
      .ok time) :
    (var = none → time = 0 ∧ delete = false ∧ (append = true → dataSize ≠ 0)) ∧
      ∀ a, var = some a → time = varTime m a := by
  cases var with
  | none =>
    obtain ⟨notEmpty, passed⟩ := ok_of_check passed
    obtain ⟨notDeleted, passed⟩ := ok_of_check passed
    refine ⟨fun _ => ⟨(Except.ok.inj passed).symm, by simpa using notDeleted, ?_⟩, by simp⟩
    simpa using notEmpty
  | some a =>
    obtain ⟨-, passed⟩ := ok_of_check passed
    obtain ⟨-, passed⟩ := ok_of_check passed
    obtain ⟨-, passed⟩ := ok_of_check passed
    refine ⟨by simp, ?_⟩
    intro b same
    rw [← some.inj same]
    exact (Except.ok.inj passed).symm

theorem Stores.checkAttributes_ok (stores : Stores c s vs) {key : EfiKey}
    (passed : checkAttributes c s.buf (locate key sizeofEfiVarFile vs).1 varType attributes
      dataSize append delete roCheck = .ok time) :
    (variableMap vs key = none → time = 0 ∧ delete = false ∧ (append = true → dataSize ≠ 0)) ∧
      ∀ v, variableMap vs key = some v → time = v.time := by
  obtain ⟨ifAbsent, ifThere⟩ := UBoot.checkAttributes_ok passed
  rcases stores.located key with ⟨absent, noVar⟩ | ⟨v, a, isThere, there, here⟩
  · refine ⟨fun _ => ifAbsent noVar, ?_⟩
    simp [absent]
  refine ⟨by simp [isThere], ?_⟩
  intro w same
  rw [isThere, some.injEq] at same
  rw [ifThere a there, here.time, same]

theorem writtenVariable_eq_newVariable {data : List UInt8} {old : Option EfiVariable}
    (empty : data = [] ↔ dataSize = 0)
    (deletes : delete = isDelete append dataSize attributes)
    (isAppend : append = hasAttribute attributes EFI_VARIABLE_APPEND_WRITE)
    (ifAbsent : old = none → time = 0 ∧ delete = false ∧ (append = true → dataSize ≠ 0))
    (ifThere : ∀ v, old = some v → time = v.time) :
    writtenVariable name vendor attributes append ⟨delete, data, time⟩ old =
      newVariable name vendor attributes data old := by
  have emptied : append = false → (delete = true ↔ data = [] ∨ attributes = 0) := by
    rintro rfl
    simp [deletes, isDelete, empty]
  unfold newVariable
  rw [← isAppend]
  cases old with
  | none =>
    obtain ⟨rfl, rfl, notEmpty⟩ := ifAbsent rfl
    cases append with
    | true => simp [writtenVariable, empty, notEmpty rfl]
    | false =>
      have kept : ¬(data = [] ∨ attributes = 0) := by simpa using emptied rfl
      rw [if_neg (by simp), if_neg kept]
      simp [writtenVariable]
  | some v =>
    obtain rfl := ifThere v rfl
    cases append with
    | true =>
      obtain rfl : delete = false := by simpa [isDelete] using deletes
      simp [writtenVariable]
    | false => simp [writtenVariable, emptied rfl]

theorem filled_of_kept {data : List UInt8} {absent : Prop} (empty : data = [] ↔ dataSize = 0)
    (kept : isDelete append dataSize attributes = false)
    (ifAbsent : absent → append = true → dataSize ≠ 0) (oneOf : append = false ∨ absent) :
    data ≠ [] := by
  rw [ne_eq, empty]
  cases append with
  | true =>
    rcases oneOf with noAppend | isAbsent
    · cases noAppend
    · exact ifAbsent isAbsent rfl
  | false =>
    rintro rfl
    cases kept

theorem checkAttributes_success
    (ended : checkAttributes c m var varType attributes dataSize append delete roCheck =
      .error .SUCCESS) : var = none ∧ append = true ∧ dataSize = 0 := by
  unfold checkAttributes at ended
  cases var with
  | none =>
    simp only at ended
    split at ended
    · next empty => simpa using empty
    · split at ended <;> cases ended
  | some a =>
    simp only at ended
    repeat' split at ended
    all_goals cases ended

end Checks

/-- A call returns without a change, or it writes a variable.  Without authentication it
returns if the sizes do not wrap. -/
theorem setVariableUsing_cases (stores : Stores c s vs)
    {result : Option (EfiVarStatus × EfiVarStore)}
    (run : setVariableUsing initSecureState c s auth args roCheck = result) :
    match result with
    | none => args.Plain → 2 ^ c.addressBits ≤
      2 * c.bufSize + 64 + 2 * (args.name.elim 0 fun name => name.val.length) + args.dataSize
    | some (status, s') =>
      (Stores c s' vs ∧ s'.buf = s.buf ∧ (status = .SUCCESS → args.Plain →
        ∃ name vendor, args.name = some name ∧ args.vendor = some vendor ∧
          hasAttribute args.attributes EFI_VARIABLE_APPEND_WRITE = true ∧ args.bytes = [] ∧
          variableMap vs (name, vendor) = none)) ∨
      ∃ t vs', Stores c t vs' ∧ status = .SUCCESS ∧
        (args.Plain → s' = t ∧ ∃ name vendor, args.name = some name ∧ args.vendor = some vendor ∧
          variableMap vs' = update (variableMap vs) (name, vendor)
            (newVariable name vendor args.attributes args.bytes (variableMap vs (name, vendor)))) ∧
        (s' = t ∨ ∃ status, initSecureState t = some (status, s')) := by
  unfold setVariableUsing at run
  cases allowed : setvariableAllowed args with
  | error refused =>
    rw [allowed] at run
    subst run
    exact .inl ⟨stores, rfl, fun success => absurd success (setvariableAllowed_error allowed)⟩
  | ok given =>
    obtain ⟨name, vendor⟩ := given
    obtain ⟨isName, isVendor, named, size⟩ := setvariableAllowed_ok allowed
    have empty : args.bytes = [] ↔ args.dataSize = 0 := by rw [← size, length_eq_zero_iff]
    obtain ⟨found, finds, stores', sameBuf, isVar⟩ := stores.find vendor name
    simp only [allowed, finds, Option.pure_def, bind_eq_bind, bind_some] at run
    rw [isVar named] at run
    split at run
    · next ended =>
      subst run
      refine .inl ⟨stores', sameBuf, ?_⟩
      rintro rfl -
      obtain ⟨absent, append, noData⟩ := checkAttributes_success ended
      rcases stores.located (name, vendor) with ⟨none, -⟩ | ⟨v, a, -, there, -⟩
      · exact ⟨name, vendor, isName, isVendor, append, empty.2 noData, none⟩
      · rw [there] at absent
        cases absent
    next time passed =>
    obtain ⟨ifAbsent, ifThere⟩ := stores.checkAttributes_ok passed
    obtain ⟨checked, t, authenticated, storesT, sameBufT, plainly, writes⟩ :=
      authenticate_total stores' auth (efiAuthVarGetType name vendor) args.attributes
        ⟨isDelete (hasAttribute args.attributes EFI_VARIABLE_APPEND_WRITE) args.dataSize
          args.attributes, args.bytes, time⟩
    rw [authenticated, bind_some] at run
    cases checked with
    | error refused =>
      subst run
      refine .inl ⟨storesT, sameBufT.trans sameBuf, ?_⟩
      rintro rfl plain
      rcases plainly plain with invalid | ⟨ok, -⟩
      · cases invalid
      · cases ok
    | ok write =>
      have filled : write.delete = false →
          hasAttribute args.attributes EFI_VARIABLE_APPEND_WRITE = false ∨
            variableMap vs (name, vendor) = none → write.data ≠ [] := by
        rcases writes write rfl with rfl | nonempty
        · exact fun kept => filled_of_kept empty kept fun absent => (ifAbsent absent).2.2
        · exact fun kept _ => nonempty kept
      have plainWrite (plain : args.Plain) := (plainly plain).resolve_left nofun
      simp only at run
      rcases storesT.writeVariable_total named filled rfl with
        ⟨lost, why⟩ | ⟨status, t', wrote, outcome⟩
      · rw [lost, bind_none] at run
        subst run
        intro plain
        obtain rfl := Except.ok.inj (plainWrite plain).1
        rcases why with ⟨deletes, absent⟩ | wraps
        · rw [(ifAbsent absent).2.1] at deletes
          cases deletes
        · rw [isName, elim_some, ← size]
          exact wraps
      rw [wrote, bind_some] at run
      obtain ⟨failed, rfl⟩ | ⟨rfl, vs', stores'', map⟩ := outcome
      · rw [if_pos failed] at run
        subst run
        exact .inl ⟨storesT, sameBufT.trans sameBuf, fun success => absurd success failed⟩
      rw [if_neg (by simp)] at run
      split at run
      · next isPk =>
        cases secured : initSecureState t' with
        | none =>
          rw [secured, bind_none] at run
          subst run
          exact fun plain => absurd isPk (plainWrite plain).2
        | some ended =>
          rw [secured, bind_some] at run
          subst run
          exact .inr ⟨t', vs', stores'', rfl, fun plain => absurd isPk (plainWrite plain).2,
            .inr ⟨_, secured⟩⟩
      · subst run
        refine .inr ⟨t', vs', stores'', rfl, fun plain => ?_, .inl rfl⟩
        obtain rfl := Except.ok.inj (plainWrite plain).1
        refine ⟨rfl, name, vendor, isName, isVendor, ?_⟩
        rw [map, writtenVariable_eq_newVariable empty rfl rfl ifAbsent ifThere]

theorem Stores.setVariable_returns (stores : Stores c s vs) (plain : args.Plain)
    (inMemory : 2 * c.bufSize + 64 + 2 * (args.name.elim 0 fun name => name.val.length) +
      args.dataSize < 2 ^ c.addressBits) :
    ∃ status s', setVariableUsing initSecureState c s auth args roCheck = some (status, s') := by
  cases run : setVariableUsing initSecureState c s auth args roCheck with
  | none => exact absurd (setVariableUsing_cases stores run plain) (Nat.not_le.2 inMemory)
  | some result => exact ⟨result.1, result.2, rfl⟩

end Set

end UBoot
