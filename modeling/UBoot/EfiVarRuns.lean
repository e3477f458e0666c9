import UBoot.EfiVarPersist

/-!
# Runs of the EFI variable services

Every store that the services come to, from an empty buffer on, stores a list of
variables.  Setting a variable is then a change of a finite map at one place, the pointer
that is kept never changes what is found, and what is written to a file comes back from
it.
-/

namespace UBoot

open Option

section Services

variable {c : EfiVarConfig} {s s' : EfiVarStore} {vs : List EfiVariable}
  {auth : EfiAuthentication} {args : SetVariableArgs} {status : EfiVarStatus}

theorem stores_efiVarMemInit (c : EfiVarConfig) (pages : Memory) :
    Stores c (efiVarMemInit c pages) [] where
  packed := trivial
  length := Layout.bufLength_setBufLength (by decide)
  fits := trivial
  distinct := List.nodup_nil
  named := by simp
  filled := by simp
  cached := by simp [efiVarMemInit]

section Stores

variable (stores : Stores c s vs)

include stores

theorem Stores.clearCache : Stores c { s with current := none } vs :=
  ⟨stores.toLayout, stores.distinct, stores.named, stores.filled, by simp⟩

theorem Stores.returned {first : EfiVarStatus} (run : some (first, s) = some (status, s')) :
    ∃ vs', Stores c s' vs' := by
  cases run
  exact ⟨vs, stores⟩

theorem Stores.getVariable {name : U16String} {vendor : EfiGuid} {dataSize : Nat}
    {data : Option Memory} {mask : BitVec 32} {read : EfiVarRead}
    (run : efiGetVariableMem c s name vendor dataSize data mask = some read) :
    Stores c read.store vs := by
  obtain ⟨found, finds, stores', -⟩ := stores.find vendor name
  unfold efiGetVariableMem at run
  simp only [finds, pure_def, bind_eq_bind, bind_some] at run
  split at run
  · cases run
    exact stores'
  split at run
  · cases run
    exact stores'
  split at run
  · obtain ⟨_, -, result⟩ := bind_eq_some_iff.1 run
    cases result
    exact stores'
  split at run
  · cases run
    exact stores'
  split at run
  · cases run
    exact stores'
  · obtain ⟨_, -, result⟩ := bind_eq_some_iff.1 run
    cases result
    exact stores'

theorem Stores.nextName {mask : BitVec 32} {size rounds : Nat} {name : Memory} {vendor : EfiGuid}
    {next : EfiNextName} (run : nextNameLoop c mask size rounds s name vendor = some next) :
    Stores c next.store vs := by
  induction rounds generalizing s name vendor with
  | zero => cases run
  | succ rounds ih =>
    rw [nextNameLoop] at run
    split at run
    · cases run
      exact stores
    obtain ⟨found, finds, rest⟩ := bind_eq_some_iff.1 run
    obtain ⟨found', finds', stores', -⟩ := stores.find vendor
      ⟨u16Units name (size / 2) 0, zero_notMem_u16Units _ _ _⟩
    cases finds'.symm.trans finds
    split at rest
    · cases rest
      exact stores'
    split at rest
    · cases rest
      exact stores'
    obtain ⟨_, -, rest⟩ := bind_eq_some_iff.1 rest
    simp only at rest
    split at rest
    · cases rest
      exact stores'
    split at rest
    · exact ih stores' rest
    · cases rest
      exact stores'

theorem Stores.setStateVariables {calls : List (String × BitVec 32 × List UInt8)}
    (run : setStateVariables c s calls = some (status, s')) : ∃ vs', Stores c s' vs' := by
  induction calls generalizing s vs with
  | nil => exact stores.returned run
  | cons call calls ih =>
    obtain ⟨⟨first, t⟩, set, rest⟩ := bind_eq_some_iff.1 run
    have kept : ∃ vs', Stores c t vs' := by
      rcases setVariableUsing_cases stores set with
        ⟨stores', -⟩ | ⟨t', vs', stores', -, -, rfl | ⟨_, again⟩⟩
      · exact ⟨vs, stores'⟩
      · exact ⟨vs', stores'⟩
      · cases again
    obtain ⟨vs', stores'⟩ := kept
    simp only at rest
    split at rest
    · exact stores'.returned rest
    · exact ih stores' rest

theorem Stores.readMode {name : String} {mode : UInt8} (run : readMode c s name = some (mode, s')) :
    Stores c s' vs := by
  obtain ⟨read, reads, result⟩ := bind_eq_some_iff.1 run
  cases result
  exact stores.getVariable reads

theorem Stores.secureMode {mode : EfiSecureMode} (run : secureMode c s = some (mode, s')) :
    Stores c s' vs := by
  unfold UBoot.secureMode at run
  split at run
  · obtain ⟨⟨deployed, t1⟩, readDeployed, run⟩ := bind_eq_some_iff.1 run
    obtain ⟨⟨audit, t2⟩, readAudit, run⟩ := bind_eq_some_iff.1 run
    obtain ⟨pk, readPk, run⟩ := bind_eq_some_iff.1 run
    have stores' := ((stores.readMode readDeployed).readMode readAudit).getVariable readPk
    split at run
    all_goals
      cases run
      exact stores'
  · cases run
    exact stores

theorem Stores.initSecureState (run : efiInitSecureState c s = some (status, s')) :
    ∃ vs', Stores c s' vs' := by
  obtain ⟨⟨mode, t⟩, chosen, set⟩ := bind_eq_some_iff.1 run
  exact (stores.secureMode chosen).setStateVariables set

theorem Stores.setVariableInt {roCheck : Bool}
    (run : efiSetVariableInt c s auth args roCheck = some (status, s')) :
    ∃ vs', Stores c s' vs' := by
  rcases setVariableUsing_cases stores run with
    ⟨stores', -⟩ | ⟨t, vs', stores', -, -, rfl | ⟨_, secured⟩⟩
  · exact ⟨vs, stores'⟩
  · exact ⟨vs', stores'⟩
  · exact stores'.initSecureState secured

theorem Stores.setVariable (run : efiSetVariable c s auth args = some (status, s')) :
    ∃ vs', Stores c s' vs' := by
  unfold efiSetVariable at run
  split at run
  · exact stores.returned run
  · exact stores.setVariableInt run

end Stores

theorem checkAttributesRuntime_ok {m : Memory} {var : Option Nat} {attributes : BitVec 32}
    {dataSize : Nat} {append delete : Bool} {time : BitVec 64}
    (passed : checkAttributesRuntime m var attributes dataSize append delete = .ok time)
    (absent : var = none) : delete = false ∧ (append = true → dataSize ≠ 0) := by
  subst absent
  obtain ⟨-, passed⟩ := ok_of_check passed
  obtain ⟨-, passed⟩ := ok_of_check passed
  obtain ⟨notEmpty, passed⟩ := ok_of_check passed
  obtain ⟨notDeleted, -⟩ := ok_of_check passed
  exact ⟨by simpa using notDeleted, by simpa using notEmpty⟩

theorem Stores.setVariableRuntime (stores : Stores c s vs)
    (run : efiSetVariableRuntime c s args = some (status, s')) : ∃ vs', Stores c s' vs' := by
  unfold efiSetVariableRuntime at run
  split at run
  · exact stores.returned run
  split at run
  · exact stores.returned run
  split at run
  · exact stores.returned run
  next name vendor allowed =>
  obtain ⟨-, -, named, size⟩ := setvariableAllowed_ok allowed
  obtain ⟨found, finds, stores', -, isVar⟩ := stores.find vendor name
  simp only [finds, pure_def, bind_eq_bind, bind_some] at run
  rw [isVar named] at run
  split at run
  · exact stores'.returned run
  next time passed =>
  have ifAbsent : variableMap vs (name, vendor) = none →
      hasAttribute args.attributes EFI_VARIABLE_APPEND_WRITE = true →
      args.dataSize ≠ 0 := by
    intro absent
    refine (checkAttributesRuntime_ok passed ?_).2
    rw [locate_none (variableMap_none.1 absent)]
  have empty : args.bytes = [] ↔ args.dataSize = 0 := by rw [← size, List.length_eq_zero_iff]
  rcases stores'.writeVariable_total named (fun kept => filled_of_kept empty kept ifAbsent)
    run with ⟨lost, -⟩ | ⟨_, _, same, ⟨-, rfl⟩ | ⟨-, vs', stores'', -⟩⟩
  · cases lost
  all_goals obtain ⟨-, rfl⟩ := Prod.mk.inj (some.inj same)
  · exact ⟨vs, stores'⟩
  · exact ⟨vs', stores''⟩

theorem Stores.restore {file : Memory} {fs : List EfiVariable} {safe : Bool}
    (stores : Stores c s vs) (holds : VariableFile file fs)
    (run : efiVarRestore c s file safe = some (status, s')) : ∃ vs', Stores c s' vs' := by
  unfold efiVarRestore at run
  split at run
  · exact stores.returned run
  obtain ⟨t, restored, result⟩ := bind_eq_some_iff.1 run
  cases result
  rcases restoreLoop_cases safe _ stores holds.packed holds.length (by decide) holds.named with
    ⟨s', ran, stores'⟩ | ⟨none, -⟩
  · cases ran.symm.trans restored
    exact ⟨_, stores'⟩
  · cases none.symm.trans restored

end Services

/-- The stores that the services come to.  A file that variables are restored from holds
variables with names, as those that are written do. -/
inductive Reachable (c : EfiVarConfig) : EfiVarStore → Prop
  | init (pages : Memory) : Reachable c (efiVarMemInit c pages)
  | setVariableInt {s s' : EfiVarStore} {auth : EfiAuthentication} {args : SetVariableArgs}
      {roCheck : Bool} {status : EfiVarStatus} (before : Reachable c s)
      (run : efiSetVariableInt c s auth args roCheck = some (status, s')) : Reachable c s'
  | setVariable {s s' : EfiVarStore} {auth : EfiAuthentication} {args : SetVariableArgs}
      {status : EfiVarStatus} (before : Reachable c s)
      (run : efiSetVariable c s auth args = some (status, s')) : Reachable c s'
  | setVariableRuntime {s s' : EfiVarStore} {args : SetVariableArgs} {status : EfiVarStatus}
      (before : Reachable c s)
      (run : efiSetVariableRuntime c s args = some (status, s')) : Reachable c s'
  | initSecureState {s s' : EfiVarStore} {status : EfiVarStatus} (before : Reachable c s)
      (run : efiInitSecureState c s = some (status, s')) : Reachable c s'
  | getVariable {s : EfiVarStore} {name : U16String} {vendor : EfiGuid} {dataSize : Nat}
      {data : Option Memory} {mask : BitVec 32} {read : EfiVarRead} (before : Reachable c s)
      (run : efiGetVariableMem c s name vendor dataSize data mask = some read) :
      Reachable c read.store
  | nextName {s : EfiVarStore} {size : Nat} {name : Memory} {vendor : EfiGuid}
      {mask : BitVec 32} {next : EfiNextName} (before : Reachable c s)
      (run : efiGetNextVariableNameMem c s size name vendor mask = some next) :
      Reachable c next.store
  | restore {s s' : EfiVarStore} {file : Memory} {fs : List EfiVariable} {safe : Bool}
      {status : EfiVarStatus} (before : Reachable c s) (holds : VariableFile file fs)
      (run : efiVarRestore c s file safe = some (status, s')) : Reachable c s'
  | virtualAddressMap {s : EfiVarStore} (before : Reachable c s) :
      Reachable c (efiVarMemNotifyVirtualAddressMap s)

theorem Reachable.stores {c : EfiVarConfig} {s : EfiVarStore} (reachable : Reachable c s) :
    ∃ vs, Stores c s vs := by
  induction reachable with
  | init pages => exact ⟨[], stores_efiVarMemInit c pages⟩
  | setVariableInt _ run ih =>
    obtain ⟨vs, stores⟩ := ih
    exact stores.setVariableInt run
  | setVariable _ run ih =>
    obtain ⟨vs, stores⟩ := ih
    exact stores.setVariable run
  | setVariableRuntime _ run ih =>
    obtain ⟨vs, stores⟩ := ih
    exact stores.setVariableRuntime run
  | initSecureState _ run ih =>
    obtain ⟨vs, stores⟩ := ih
    exact stores.initSecureState run
  | getVariable _ run ih =>
    obtain ⟨vs, stores⟩ := ih
    exact ⟨vs, stores.getVariable run⟩
  | nextName _ run ih =>
    obtain ⟨vs, stores⟩ := ih
    exact ⟨vs, stores.nextName run⟩
  | restore _ holds run ih =>
    obtain ⟨vs, stores⟩ := ih
    exact stores.restore holds run
  | virtualAddressMap _ ih =>
    obtain ⟨vs, stores⟩ := ih
    exact ⟨vs, stores.clearCache⟩

/-! ## The store is a finite map -/

/-- The outcome of a call that sets a variable: the map is changed at one place, or the buffer
is as before. -/
structure SetOutcome (c : EfiVarConfig) (s : EfiVarStore) (vs : List EfiVariable)
    (args : SetVariableArgs) (status : EfiVarStatus) (s' : EfiVarStore) : Prop where
  success : status = .SUCCESS → ∃ name vendor vs', args.name = some name ∧
    args.vendor = some vendor ∧ Stores c s' vs' ∧
    variableMap vs' = Function.update (variableMap vs) (name, vendor)
      (newVariable name vendor args.attributes args.bytes (variableMap vs (name, vendor)))
  failure : status ≠ .SUCCESS → s'.buf = s.buf

/-- A store of variables in which the pointer that is kept never shows, and in which a
variable is set as in a finite map. -/
structure MapStore (c : EfiVarConfig) (s : EfiVarStore) (vs : List EfiVariable) : Prop where
  stores : Stores c s vs
  sameAsScan : ∀ guid name,
    (efiVarMemFind c s guid name).map (fun found => (found.var, found.next)) =
      (efiVarMemFind c { s with current := none } guid name).map
        fun found => (found.var, found.next)
  setVariableInt : ∀ auth args roCheck status s', args.Plain →
    efiSetVariableInt c s auth args roCheck = some (status, s') → SetOutcome c s vs args status s'
  setVariable : ∀ auth args status s', args.Plain →
    efiSetVariable c s auth args = some (status, s') → SetOutcome c s vs args status s'
  returns : ∀ auth args, args.Plain →
    2 * c.bufSize + 64 + 2 * (args.name.elim 0 fun name => name.val.length) + args.dataSize <
      2 ^ c.addressBits →
    (∀ roCheck, ∃ status s', efiSetVariableInt c s auth args roCheck = some (status, s')) ∧
      ∃ status s', efiSetVariable c s auth args = some (status, s')

theorem Stores.setOutcome {c : EfiVarConfig} {s s' : EfiVarStore} {vs : List EfiVariable}
    {auth : EfiAuthentication} {args : SetVariableArgs} {roCheck : Bool} {status : EfiVarStatus}
    (stores : Stores c s vs) (plain : args.Plain)
    (run : efiSetVariableInt c s auth args roCheck = some (status, s')) :
    SetOutcome c s vs args status s' := by
  rcases setVariableUsing_cases stores run with
    ⟨stores', sameBuf, ended⟩ | ⟨t, vs', stores', rfl, written, -⟩
  · refine ⟨fun success => ?_, fun _ => sameBuf⟩
    obtain ⟨name, vendor, isName, isVendor, append, noData, absent⟩ := ended success plain
    refine ⟨name, vendor, vs, isName, isVendor, stores', ?_⟩
    have stays : newVariable name vendor args.attributes args.bytes
        (variableMap vs (name, vendor)) = variableMap vs (name, vendor) := by
      rw [absent, newVariable, if_pos append, noData]
      rfl
    rw [stays, Function.update_eq_self]
  · obtain ⟨rfl, name, vendor, isName, isVendor, map⟩ := written plain
    exact ⟨fun _ => ⟨name, vendor, vs', isName, isVendor, stores', map⟩, by simp⟩

/-- In every run the store of variables is a finite map. -/
theorem reachable_mapStore (c : EfiVarConfig) (s : EfiVarStore) (reachable : Reachable c s) :
    ∃ vs, MapStore c s vs := by
  obtain ⟨vs, stores⟩ := reachable.stores
  refine ⟨vs, stores, stores.find_eq_scan, ?_, ?_, ?_⟩
  · intro auth args roCheck status s' plain run
    exact stores.setOutcome plain run
  · intro auth args status s' plain run
    unfold efiSetVariable at run
    split at run
    · cases run
      exact ⟨by simp, fun _ => rfl⟩
    · exact stores.setOutcome plain run
  intro auth args plain inMemory
  refine ⟨fun roCheck => stores.setVariable_returns plain inMemory, ?_⟩
  unfold efiSetVariable
  split
  · exact ⟨_, _, rfl⟩
  · exact stores.setVariable_returns plain inMemory

def smallConfig : EfiVarConfig where
  bufSize := 4096
  addressBits := 32
  crc32 _ := 0
  secureBoot := false
  preseed := false
  rtVolatileStore := false
  bufSize_ge := by decide
  bufSize_lt := by decide
  addressBits_ge := by decide

def sampleArgs : SetVariableArgs where
  name := some (u16String "Boot0001")
  vendor := some efiGlobalVariableGuid
  attributes := EFI_VARIABLE_NON_VOLATILE ||| EFI_VARIABLE_BOOTSERVICE_ACCESS
  dataSize := 1
  data := some fun _ => 7

def noAuthentication : EfiAuthentication where
  reads := []
  verdict := .error .SECURITY_VIOLATION

theorem exists_sampleStore : ∃ s, Reachable smallConfig s ∧
    efiSetVariable smallConfig (efiVarMemInit smallConfig fun _ => 0) noAuthentication
      sampleArgs = some (.SUCCESS, s) := by
  have succeeds : (efiSetVariable smallConfig (efiVarMemInit smallConfig fun _ => 0)
      noAuthentication sampleArgs).map Prod.fst = some .SUCCESS := by decide
  obtain ⟨⟨status, s⟩, run, isSuccess⟩ := map_eq_some_iff.1 succeeds
  obtain rfl : status = .SUCCESS := isSuccess
  exact ⟨s, (Reachable.init fun _ => 0).setVariable run, run⟩

theorem reachable_mapStore_sample : ∃ s, Reachable smallConfig s ∧
    efiSetVariable smallConfig (efiVarMemInit smallConfig fun _ => 0) noAuthentication
      sampleArgs = some (.SUCCESS, s) ∧ ∃ vs, MapStore smallConfig s vs := by
  obtain ⟨s, reachable, run⟩ := exists_sampleStore
  exact ⟨s, reachable, run, reachable_mapStore smallConfig s reachable⟩

/-- A variable without a name. -/
def unnamedVariable : EfiVariable :=
  ⟨u16String "", efiGlobalVariableGuid, EFI_VARIABLE_NON_VOLATILE, 0, [7]⟩

def unnamedFile : Memory := fun i => (fileHeader 104 0 ++ (unnamedVariable.bytes ++
  List.replicate 5 0) ++ unnamedVariable.bytes).getD i 0

/-- A variable without a name is never found, so a file that has it twice is restored as it
is. -/
theorem efiVarRestore_stores_twice :
    (efiVarRestore smallConfig (efiVarMemInit smallConfig fun _ => 0) unnamedFile false).map
        (fun ran => (ran.1, bufLength ran.2.buf, ran.2.buf.read 24 35, ran.2.buf.read 64 35)) =
      some (.SUCCESS, 104, unnamedVariable.bytes, unnamedVariable.bytes) := by
  decide

/-- In every run the variables that are collected for a file and restored from it into an
empty buffer are the persistent ones. -/
theorem reachable_persists (c : EfiVarConfig) (s : EfiVarStore) (reachable : Reachable c s) :
    ∃ vs, Stores c s vs ∧ (∀ buf lenp, bufLength s.buf ≤ lenp → ∃ len file,
        efiVarCollectMem c s.buf (some buf) lenp EFI_VARIABLE_NON_VOLATILE =
          some (.SUCCESS, len, some file)) ∧
      ∀ buf lenp len file, efiVarCollectMem c s.buf (some buf) lenp EFI_VARIABLE_NON_VOLATILE =
          some (.SUCCESS, len, some file) →
        ∀ empty, Stores c empty [] →
          ∃ restored, efiVarRestore c empty file false = some (.SUCCESS, restored) ∧
            ∀ ws, Stores c restored ws ↔ ws = vs.filter EfiVariable.persistent := by
  obtain ⟨vs, stores⟩ := reachable.stores
  refine ⟨vs, stores, ?_, ?_⟩
  · intro buf lenp long
    have fewer : efiVarFormat.total
        (vs.filter (EfiVariable.matches EFI_VARIABLE_NON_VOLATILE)) ≤ efiVarFormat.total vs :=
      RecordFormat.total_sublist List.filter_sublist
    have room : sizeofEfiVarFile + efiVarFormat.total
        (vs.filter (EfiVariable.matches EFI_VARIABLE_NON_VOLATILE)) ≤ lenp := by
      have used := stores.length
      omega
    obtain ⟨len, file, ran, -⟩ := efiVarCollectMem_file (b := buf) stores.toLayout stores.named room
    exact ⟨len, file, ran⟩
  · intro buf lenp len file run empty isEmpty
    obtain ⟨restored, ran, stores'⟩ := stores.persisted isEmpty run
    refine ⟨restored, ran, fun ws => ⟨fun also => ?_, ?_⟩⟩
    · exact also.toLayout.unique stores'.toLayout
    · rintro rfl
      exact stores'

theorem reachable_persists_sample : ∃ s vs, Reachable smallConfig s ∧
    Stores smallConfig s vs ∧ ∃ len file restored,
      efiVarCollectMem smallConfig s.buf (some fun _ => 0) 4096 EFI_VARIABLE_NON_VOLATILE =
        some (.SUCCESS, len, some file) ∧
      efiVarRestore smallConfig (efiVarMemInit smallConfig fun _ => 0) file false =
        some (.SUCCESS, restored) ∧
      Stores smallConfig restored (vs.filter EfiVariable.persistent) := by
  obtain ⟨s, reachable, -⟩ := exists_sampleStore
  obtain ⟨vs, stores, collects, restores⟩ := reachable_persists smallConfig s reachable
  have short : bufLength s.buf ≤ 4096 := by
    have size : smallConfig.bufSize = 4096 := rfl
    have bound := stores.total_lt
    have aligned := Layout.aligned vs
    rw [stores.length]
    omega
  obtain ⟨len, file, run⟩ := collects (fun _ => 0) 4096 short
  obtain ⟨restored, ran, same⟩ := restores _ _ _ _ run _ (stores_efiVarMemInit smallConfig _)
  exact ⟨s, vs, reachable, stores, len, file, restored, run, ran, (same _).2 rfl⟩

end UBoot
