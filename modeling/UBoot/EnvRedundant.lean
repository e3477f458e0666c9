import UBoot.EnvCommon

/-!
# The redundant environment in NAND

The environment is saved alternately to two copies in NAND, with a serial
number that is counted in eight bits, and a reboot loads the copy that the
serial numbers show to be newer.  This file translates `env_nand_save` and
`env_nand_load` of `env/nand.c` and studies runs of saves, in which writes may
fail, and reboots.  The newer copy is recognised if its serial number has not
gone round past that of the other copy; saves that fail, or fall back to the
other copy, let it go round.
-/

namespace UBoot

open Option

inductive WriteOutcome
  | ok
  | untouched
  | badCrc (left : EnvT)

structure EnvSystem where
  nand : EnvT
  redundantNand : EnvT
  envValid : EnvValid
  envFlags : BitVec 8
  deriving DecidableEq, Repr

namespace EnvSystem

variable (sys : EnvSystem)

def copy (envIdx : Fin 2) : EnvT :=
  if envIdx = 0 then sys.nand else sys.redundantNand

def envIdx : Fin 2 :=
  if sys.envValid = .VALID then 1 else 0

def setCopy (envIdx : Fin 2) (env : EnvT) : EnvSystem :=
  if envIdx = 0 then { sys with nand := env } else { sys with redundantNand := env }

end EnvSystem

/-- `erase_and_write_env`, with whether it succeeds. -/
def eraseAndWriteEnv (sys : EnvSystem) (envIdx : Fin 2) (envNew : EnvT) :
    WriteOutcome → Bool × EnvSystem
  | .ok => (true, sys.setCopy envIdx envNew)
  | .untouched => (false, sys)
  | .badCrc left => (false, sys.setCopy envIdx left)

structure SaveResult where
  saved : Option (Fin 2 × EnvT)
  sys : EnvSystem
  deriving DecidableEq, Repr

/-- The part of `env_nand_save` after the export. -/
def writeCopies (sys : EnvSystem) (envNew : EnvT) (first second : WriteOutcome) : SaveResult :=
  let envIdx := sys.envIdx
  let (ok, sys) := eraseAndWriteEnv sys envIdx envNew first
  if ok then
    ⟨some (envIdx, envNew),
      { sys with envValid := if sys.envValid = .REDUND then .VALID else .REDUND }⟩
  else
    let envIdx := envIdx + 1
    let (ok, sys) := eraseAndWriteEnv sys envIdx envNew second
    ⟨if ok then some (envIdx, envNew) else none, sys⟩

section Runs

variable (crc32 : List UInt8 → BitVec 32) (config : EnvConfig) (hooks : HashHooks)
  (envSize : Nat)

def envNandSave (sys : EnvSystem) (htab : HsearchData) (first second : WriteOutcome) : SaveResult :=
  match envExport crc32 config hooks envSize htab sys.envFlags with
  | .error _ => ⟨none, sys⟩
  | .ok (envNew, envFlags) => writeCopies { sys with envFlags } envNew first second

/-- `env_nand_load` after a reset, with the copy that it passes to `env_import`. -/
def envNandLoad (sys : EnvSystem) : Option EnvT × EnvSystem :=
  let result := envImportRedund crc32 sys.nand false sys.redundantNand false .INVALID 0
  (result.ep, { sys with envValid := result.envValid, envFlags := result.envFlags })

inductive EnvEvent
  | save (htab : HsearchData) (first second : WriteOutcome)
  | reboot

structure EnvState where
  sys : EnvSystem
  latest : Option (Fin 2 × EnvT)
  deriving DecidableEq, Repr

def envStep (state : EnvState) : EnvEvent → EnvState
  | .save htab first second =>
    let result := envNandSave crc32 config hooks envSize state.sys htab first second
    ⟨result.sys, result.saved <|> state.latest⟩
  | .reboot => ⟨(envNandLoad crc32 state.sys).2, state.latest⟩

def envRun (state : EnvState) (events : List EnvEvent) : EnvState :=
  events.foldl (envStep crc32 config hooks envSize) state

end Runs

variable {sys : EnvSystem}

section Choice

variable (crc32 : List UInt8 → BitVec 32)

def GoodCrc (env : EnvT) : Prop := crc32 env.data = env.crc

instance (env : EnvT) : Decidable (GoodCrc crc32 env) :=
  inferInstanceAs (Decidable (crc32 env.data = env.crc))

/-- The serial number of a copy that was written to a location is newer than that
of the other copy, as far as the choice between them can tell. -/
def SerialNewer (envIdx : Fin 2) (written other : BitVec 8) : Prop :=
  written = other + 1 ∨ (other < written ∧ ¬ (other = 0 ∧ written = 255)) ∨
    (written = other ∧ envIdx = 0)

instance (envIdx : Fin 2) (written other : BitVec 8) :
    Decidable (SerialNewer envIdx written other) :=
  inferInstanceAs (Decidable (_ ∨ _ ∨ _))

theorem checkSerial_first (written other : BitVec 8) : checkSerial written other =
      if SerialNewer 0 written other then .VALID else .REDUND := by
  have newer : SerialNewer 0 written other ↔ written = other + 1 ∨
      (other < written ∧ ¬ (other = 0 ∧ written = 255)) ∨ written = other := by
    simp [SerialNewer]
  simp only [checkSerial, newer]
  split_ifs <;> first | rfl | (exfalso; bv_omega)

theorem checkSerial_second (other written : BitVec 8) : checkSerial other written =
      if SerialNewer 1 written other then .REDUND else .VALID := by
  have newer : SerialNewer 1 written other ↔ written = other + 1 ∨
      (other < written ∧ ¬ (other = 0 ∧ written = 255)) := by
    simp [SerialNewer]
  simp only [checkSerial, newer]
  split_ifs <;> first | rfl | (exfalso; bv_omega)

variable {crc32}

theorem envNandLoad_eq (envIdx : Fin 2) (good : GoodCrc crc32 (sys.copy envIdx)) :
    (envNandLoad crc32 sys).1 = some (sys.copy (if GoodCrc crc32 (sys.copy (envIdx + 1)) ∧
          ¬ SerialNewer envIdx (sys.copy envIdx).flags (sys.copy (envIdx + 1)).flags then
        envIdx + 1 else envIdx)) := by
  unfold envNandLoad envImportRedund envCheckRedund
  match envIdx with
  | 0 =>
    have first : crc32 sys.nand.data = sys.nand.crc := good
    by_cases second : crc32 sys.redundantNand.data = sys.redundantNand.crc
    · simp [GoodCrc, EnvSystem.copy, first, second, checkSerial_first]
    · simp [GoodCrc, EnvSystem.copy, first, second]
  | 1 =>
    have second : crc32 sys.redundantNand.data = sys.redundantNand.crc := good
    by_cases first : crc32 sys.nand.data = sys.nand.crc
    · simp [GoodCrc, EnvSystem.copy, first, second, checkSerial_second]
    · simp [GoodCrc, EnvSystem.copy, first, second]

end Choice

variable {crc32 : List UInt8 → BitVec 32}

section Saves

def WriteOutcome.Admissible (crc32 : List UInt8 → BitVec 32) : WriteOutcome → Prop
  | .badCrc left => ¬ GoodCrc crc32 left
  | _ => True

def Worn (crc32 : List UInt8 → BitVec 32) (sys worn : EnvSystem) : Prop :=
  ∀ envIdx, worn.copy envIdx = sys.copy envIdx ∨ ¬ GoodCrc crc32 (worn.copy envIdx)

@[simp]
theorem copy_setCopy_self (envIdx : Fin 2) (env : EnvT) :
    (sys.setCopy envIdx env).copy envIdx = env := by
  unfold EnvSystem.copy EnvSystem.setCopy
  split_ifs <;> rfl

variable {envIdx : Fin 2}

theorem copy_setCopy_of_ne {other : Fin 2} (ne : other ≠ envIdx) (env : EnvT) :
    (sys.setCopy envIdx env).copy other = sys.copy other := by
  unfold EnvSystem.copy EnvSystem.setCopy
  split_ifs
  · exact absurd (by omega) ne
  · rfl
  · rfl
  · exact absurd (by omega) ne

theorem other_ne (envIdx : Fin 2) : envIdx + 1 ≠ envIdx := by omega

theorem Worn.refl (sys : EnvSystem) : Worn crc32 sys sys := fun _ => Or.inl rfl

theorem Worn.trans {worn last : EnvSystem} (before : Worn crc32 sys worn)
    (after : Worn crc32 worn last) : Worn crc32 sys last := by
  intro envIdx
  rcases after envIdx with same | bad
  · rw [same]
    exact before envIdx
  · exact Or.inr bad

variable {outcome : WriteOutcome}

theorem eraseAndWriteEnv_worn {envNew : EnvT} (admissible : outcome.Admissible crc32)
    (failed : (eraseAndWriteEnv sys envIdx envNew outcome).1 = false) :
    Worn crc32 sys (eraseAndWriteEnv sys envIdx envNew outcome).2 := by
  cases outcome with
  | ok => cases failed
  | untouched => exact Worn.refl sys
  | badCrc left =>
    intro other
    by_cases same : other = envIdx
    · subst same
      right
      exact (copy_setCopy_self other left).symm ▸ admissible
    · left
      exact copy_setCopy_of_ne same left

theorem eraseAndWriteEnv_written {envNew : EnvT}
    (written : (eraseAndWriteEnv sys envIdx envNew outcome).1 = true) :
    (eraseAndWriteEnv sys envIdx envNew outcome).2.copy envIdx = envNew := by
  cases outcome with
  | ok => exact copy_setCopy_self envIdx envNew
  | untouched => cases written
  | badCrc left => cases written

theorem writeCopies_cases (sys : EnvSystem) (envNew : EnvT) {first second : WriteOutcome}
    (firstAdmissible : first.Admissible crc32)
    (secondAdmissible : second.Admissible crc32) :
    (∃ envIdx, (writeCopies sys envNew first second).saved = some (envIdx, envNew) ∧
      (writeCopies sys envNew first second).sys.copy envIdx = envNew) ∨
    ((writeCopies sys envNew first second).saved = none ∧
      Worn crc32 sys (writeCopies sys envNew first second).sys) := by
  unfold writeCopies
  simp only
  generalize sys.envIdx = envIdx
  cases firstWrite : (eraseAndWriteEnv sys envIdx envNew first).1 with
  | true =>
    left
    exact ⟨envIdx, rfl, eraseAndWriteEnv_written firstWrite⟩
  | false =>
    have firstWorn := eraseAndWriteEnv_worn firstAdmissible firstWrite
    cases secondWrite : (eraseAndWriteEnv (eraseAndWriteEnv sys envIdx envNew first).2
        (envIdx + 1) envNew second).1 with
    | true =>
      left
      exact ⟨envIdx + 1, rfl, eraseAndWriteEnv_written secondWrite⟩
    | false =>
      right
      exact ⟨rfl, firstWorn.trans (eraseAndWriteEnv_worn secondAdmissible secondWrite)⟩

end Saves

section Recovery

variable {config : EnvConfig} {hooks : HashHooks} {envSize : Nat} {state : EnvState}

/-- A serial number that is written to a location is newer than that of the copy
that stays, if that copy is good. -/
def NewerThanOther (crc32 : List UInt8 → BitVec 32) (sys : EnvSystem)
    (serial : BitVec 8) (envIdx : Fin 2) : Prop :=
  GoodCrc crc32 (sys.copy (envIdx + 1)) → SerialNewer envIdx serial (sys.copy (envIdx + 1)).flags

/-- If a save is going to succeed, its serial number is newer than that of the copy
that it leaves as it is. -/
def SaveSafe (crc32 : List UInt8 → BitVec 32) (sys : EnvSystem) (serial : BitVec 8) :
    (first second : WriteOutcome) → Prop
  | .ok, _ => NewerThanOther crc32 sys serial sys.envIdx
  | .untouched, .ok => NewerThanOther crc32 sys serial (sys.envIdx + 1)
  | _, _ => True

def StepSafe (crc32 : List UInt8 → BitVec 32) (sys : EnvSystem) : EnvEvent → Prop
  | .save _ first second => first.Admissible crc32 ∧ second.Admissible crc32 ∧
      SaveSafe crc32 sys (sys.envFlags + 1) first second
  | .reboot => True

def RunSafe (crc32 : List UInt8 → BitVec 32) (config : EnvConfig) (hooks : HashHooks)
    (envSize : Nat) : EnvState → List EnvEvent → Prop
  | _, [] => True
  | state, event :: events => StepSafe crc32 state.sys event ∧ RunSafe crc32 config hooks envSize
        (envStep crc32 config hooks envSize state event) events

/-- A save that reports success leaves a copy that is newer than the other one, if
that is good. -/
def SaveRecognised (crc32 : List UInt8 → BitVec 32) (result : SaveResult) : Prop :=
  ∀ envIdx env, result.saved = some (envIdx, env) → GoodCrc crc32 (result.sys.copy (envIdx + 1)) →
    SerialNewer envIdx env.flags (result.sys.copy (envIdx + 1)).flags

theorem writeCopies_ok (sys : EnvSystem) (env : EnvT) (second : WriteOutcome) :
    writeCopies sys env .ok second = ⟨some (sys.envIdx, env), { sys.setCopy sys.envIdx env with
        envValid := if sys.envValid = .REDUND then .VALID else .REDUND }⟩ := by
  have kept : (sys.setCopy sys.envIdx env).envValid = sys.envValid := by
    unfold EnvSystem.setCopy
    split_ifs <;> rfl
  simp [writeCopies, eraseAndWriteEnv, kept]

theorem copy_writeCopies_ok (sys : EnvSystem) (env : EnvT) (second : WriteOutcome) :
    (writeCopies sys env .ok second).sys.copy (sys.envIdx + 1) = sys.copy (sys.envIdx + 1) := by
  rw [writeCopies_ok]
  unfold EnvSystem.envIdx EnvSystem.copy EnvSystem.setCopy
  by_cases valid : sys.envValid = .VALID
  · simp [valid]
  · simp [valid]

variable {env : EnvT}

theorem saveRecognised_iff {result : SaveResult} {envIdx : Fin 2}
    (saved : result.saved = some (envIdx, env)) :
    SaveRecognised crc32 result ↔ (GoodCrc crc32 (result.sys.copy (envIdx + 1)) →
        SerialNewer envIdx env.flags (result.sys.copy (envIdx + 1)).flags) := by
  constructor
  · intro recognised
    exact recognised envIdx env saved
  · intro newer other written savedOther
    cases saved.symm.trans savedOther
    exact newer

theorem saveRecognised_writeCopies_iff (sys : EnvSystem) (env : EnvT)
    {first : WriteOutcome} (second : WriteOutcome)
    (admissible : first.Admissible crc32) :
    SaveRecognised crc32 (writeCopies sys env first second) ↔
      SaveSafe crc32 sys env.flags first second := by
  have unsaved : ∀ {result : SaveResult}, result.saved = none → SaveRecognised crc32 result := by
    intro result failed envIdx written saved
    rw [failed] at saved
    cases saved
  cases first with
  | ok =>
    have saved : (writeCopies sys env .ok second).saved = some (sys.envIdx, env) := rfl
    rw [saveRecognised_iff saved, copy_writeCopies_ok]
    rfl
  | untouched =>
    cases second with
    | ok =>
      have saved : (writeCopies sys env .untouched .ok).saved = some (sys.envIdx + 1, env) := rfl
      have other : (writeCopies sys env .untouched .ok).sys.copy
          (sys.envIdx + 1 + 1) = sys.copy (sys.envIdx + 1 + 1) :=
        copy_setCopy_of_ne (other_ne _) env
      rw [saveRecognised_iff saved, other]
      rfl
    | untouched => exact iff_of_true (unsaved rfl) trivial
    | badCrc left => exact iff_of_true (unsaved rfl) trivial
  | badCrc left =>
    cases second with
    | ok =>
      have saved : (writeCopies sys env (.badCrc left) .ok).saved =
        some (sys.envIdx + 1, env) := rfl
      have back : sys.envIdx + 1 + 1 = sys.envIdx := by omega
      have other : (writeCopies sys env (.badCrc left) .ok).sys.copy
          (sys.envIdx + 1 + 1) = left := by
        apply (copy_setCopy_of_ne (other_ne _) env).trans
        rw [back]
        exact copy_setCopy_self sys.envIdx left
      rw [saveRecognised_iff saved, other]
      exact iff_of_true (fun good => absurd good admissible) trivial
    | untouched => exact iff_of_true (unsaved rfl) trivial
    | badCrc later => exact iff_of_true (unsaved rfl) trivial

/-- The most recent save has a good checksum and, while its copy is intact, is newer
than the other copy. -/
structure Recoverable (crc32 : List UInt8 → BitVec 32) (state : EnvState) : Prop where
  good : ∀ envIdx env, state.latest = some (envIdx, env) → GoodCrc crc32 env
  newer : ∀ envIdx env, state.latest = some (envIdx, env) →
    state.sys.copy envIdx = env → GoodCrc crc32 (state.sys.copy (envIdx + 1)) →
    SerialNewer envIdx env.flags (state.sys.copy (envIdx + 1)).flags

theorem Recoverable.worn (recoverable : Recoverable crc32 state)
    (worn : Worn crc32 state.sys sys) : Recoverable crc32 ⟨sys, state.latest⟩ where
  good := recoverable.good
  newer := by
    intro envIdx env latest intact otherGood
    have copySame : sys.copy envIdx = state.sys.copy envIdx := by
      rcases worn envIdx with same | bad
      · exact same
      · have good := recoverable.good envIdx env latest
        rw [← intact] at good
        exact absurd good bad
    have otherSame : sys.copy (envIdx + 1) = state.sys.copy (envIdx + 1) :=
      (worn (envIdx + 1)).resolve_right (not_not.2 otherGood)
    simp only [otherSame, copySame] at intact otherGood ⊢
    exact recoverable.newer envIdx env latest intact otherGood

theorem Recoverable.saved {result : SaveResult} {envIdx : Fin 2}
    (saved : result.saved = some (envIdx, env)) (good : GoodCrc crc32 env)
    (recognised : SaveRecognised crc32 result) :
    Recoverable crc32 ⟨result.sys, some (envIdx, env)⟩ where
  good := by
    intro other written latest
    cases latest
    exact good
  newer := by
    intro other written latest _ otherGood
    cases latest
    exact recognised _ _ saved otherGood

theorem envExport_ok {htab : HsearchData} {envFlags serial : BitVec 8}
    (exported : envExport crc32 config hooks envSize htab envFlags = .ok (env, serial)) :
    GoodCrc crc32 env ∧ env.flags = envFlags + 1 ∧ serial = envFlags + 1 := by
  unfold envExport at exported
  cases written : hexportR config hooks htab 0 0 true envSize [] with
  | error errno =>
    rw [written] at exported
    cases exported
  | ok result =>
    rw [written] at exported
    cases exported
    exact ⟨rfl, rfl, rfl⟩

section First

variable {first second : WriteOutcome}

theorem envNandSave_cases (sys : EnvSystem) (htab : HsearchData)
    (firstAdmissible : first.Admissible crc32) (secondAdmissible : second.Admissible crc32) :
    (∃ envIdx env, (envNandSave crc32 config hooks envSize sys htab first second).saved =
        some (envIdx, env) ∧ GoodCrc crc32 env ∧
      (envNandSave crc32 config hooks envSize sys htab first second).sys.copy envIdx = env) ∨
    ((envNandSave crc32 config hooks envSize sys htab first second).saved = none ∧
      Worn crc32 sys (envNandSave crc32 config hooks envSize sys htab first second).sys) := by
  unfold envNandSave
  split
  · exact Or.inr ⟨rfl, Worn.refl sys⟩
  rename_i env envFlags exported
  rcases writeCopies_cases { sys with envFlags } env firstAdmissible
    secondAdmissible with ⟨envIdx, saved, written⟩ | failed
  · exact Or.inl ⟨envIdx, env, saved, (envExport_ok exported).1, written⟩
  · exact Or.inr failed

theorem saveRecognised_iff_saveSafe {sys : EnvSystem} {htab : HsearchData}
    (admissible : first.Admissible crc32) {saved : Fin 2 × EnvT}
    (success : (envNandSave crc32 config hooks envSize sys htab first second).saved = some saved) :
    SaveRecognised crc32 (envNandSave crc32 config hooks envSize sys htab first second) ↔
      SaveSafe crc32 sys (sys.envFlags + 1) first second := by
  unfold envNandSave at success ⊢
  split at success
  · cases success
  rename_i env envFlags exported
  obtain ⟨-, serial, -⟩ := envExport_ok exported
  rw [saveRecognised_writeCopies_iff _ env second admissible, serial]
  exact Iff.rfl

theorem Recoverable.save (recoverable : Recoverable crc32 state) (htab : HsearchData)
    (firstAdmissible : first.Admissible crc32) (secondAdmissible : second.Admissible crc32)
    (safe : SaveSafe crc32 state.sys (state.sys.envFlags + 1) first second) : Recoverable crc32
      (envStep crc32 config hooks envSize state (.save htab first second)) := by
  unfold envStep
  simp only
  rcases envNandSave_cases state.sys htab firstAdmissible secondAdmissible with
    ⟨envIdx, env, saved, good, -⟩ | ⟨failed, worn⟩
  · rw [saved]
    exact Recoverable.saved saved good
      ((saveRecognised_iff_saveSafe firstAdmissible saved).2 safe)
  · rw [failed]
    exact recoverable.worn worn

end First

theorem Recoverable.step (recoverable : Recoverable crc32 state) {event : EnvEvent}
    (safe : StepSafe crc32 state.sys event) :
    Recoverable crc32 (envStep crc32 config hooks envSize state event) := by
  cases event with
  | save htab first second =>
    obtain ⟨firstAdmissible, secondAdmissible, saveSafe⟩ := safe
    exact recoverable.save htab firstAdmissible secondAdmissible saveSafe
  | reboot => exact recoverable.worn (Worn.refl state.sys)

theorem Recoverable.run (events : List EnvEvent) : ∀ {state}, Recoverable crc32 state →
      RunSafe crc32 config hooks envSize state events →
      Recoverable crc32 (envRun crc32 config hooks envSize state events) := by
  induction events with
  | nil =>
    intro state recoverable _
    exact recoverable
  | cons event events ih =>
    intro state recoverable safe
    exact ih (recoverable.step safe.1) safe.2

/-- The copy that the next save leaves alone, if it is good, is the one that was
loaded or saved last, with the current serial number. -/
def Tracked (crc32 : List UInt8 → BitVec 32) (sys : EnvSystem) : Prop :=
  GoodCrc crc32 (sys.copy (sys.envIdx + 1)) →
    (sys.copy (sys.envIdx + 1)).flags = sys.envFlags ∧ sys.envValid ≠ .INVALID

def EnvEvent.Succeeds (crc32 : List UInt8 → BitVec 32) : EnvEvent → Prop
  | .save _ first second => first = .ok ∧ second.Admissible crc32
  | .reboot => True

theorem tracked_envNandLoad (sys : EnvSystem) : Tracked crc32 (envNandLoad crc32 sys).2 := by
  unfold Tracked GoodCrc envNandLoad envImportRedund envCheckRedund
  by_cases first : crc32 sys.nand.data = sys.nand.crc
  · by_cases second : crc32 sys.redundantNand.data = sys.redundantNand.crc
    · by_cases newer : SerialNewer 0 sys.nand.flags sys.redundantNand.flags
      · simp [first, second, checkSerial_first, newer, EnvSystem.envIdx, EnvSystem.copy]
      · simp [first, second, checkSerial_first, newer, EnvSystem.envIdx, EnvSystem.copy]
    · simp [first, second, EnvSystem.envIdx, EnvSystem.copy]
  · by_cases second : crc32 sys.redundantNand.data = sys.redundantNand.crc
    · simp [first, second, EnvSystem.envIdx, EnvSystem.copy]
    · simp [first, second, EnvSystem.envIdx, EnvSystem.copy]

theorem tracked_writeCopies (tracked : Tracked crc32 sys)
    (newer : env.flags = sys.envFlags + 1) (second : WriteOutcome) :
    Tracked crc32 (writeCopies { sys with envFlags := sys.envFlags + 1 } env .ok second).sys := by
  rw [writeCopies_ok]
  cases valid : sys.envValid with
  | VALID => simp [Tracked, EnvSystem.envIdx, EnvSystem.copy, EnvSystem.setCopy, newer]
  | REDUND => simp [Tracked, EnvSystem.envIdx, EnvSystem.copy, EnvSystem.setCopy, newer]
  | INVALID =>
    have bad : ¬ GoodCrc crc32 sys.redundantNand := by
      simpa [Tracked, EnvSystem.envIdx, EnvSystem.copy, valid] using tracked
    simp [Tracked, EnvSystem.envIdx, EnvSystem.copy, EnvSystem.setCopy, bad]

theorem tracked_envNandSave (tracked : Tracked crc32 sys)
    (htab : HsearchData) (second : WriteOutcome) :
    Tracked crc32 (envNandSave crc32 config hooks envSize sys htab .ok second).sys := by
  unfold envNandSave
  split
  · exact tracked
  · rename_i env envFlags exported
    obtain ⟨-, serial, rfl⟩ := envExport_ok exported
    exact tracked_writeCopies tracked serial second

/-- Without write failures every save is safe, however often the serial number goes
round. -/
theorem runSafe_of_succeeds (events : List EnvEvent) :
    ∀ {state}, Tracked crc32 state.sys → (∀ event ∈ events, event.Succeeds crc32) →
      RunSafe crc32 config hooks envSize state events := by
  induction events with
  | nil =>
    intro state _ _
    trivial
  | cons event events ih =>
    intro state tracked succeeds
    have later : ∀ event ∈ events, event.Succeeds crc32 := fun event member =>
      succeeds event (List.mem_cons_of_mem _ member)
    have now := succeeds event List.mem_cons_self
    cases event with
    | save htab first second =>
      obtain ⟨rfl, admissible⟩ := now
      have safe : SaveSafe crc32 state.sys (state.sys.envFlags + 1) .ok second := by
        intro otherGood
        left
        rw [(tracked otherGood).1]
      exact ⟨⟨trivial, admissible, safe⟩, ih (tracked_envNandSave tracked htab second) later⟩
    | reboot => exact ⟨trivial, ih (tracked_envNandLoad state.sys) later⟩

/-- In a run in which every save is safe, each reboot loads the environment of the
most recent save that reported success, while its copy is intact.  After a save
that reported success and was not safe a reboot loads the other copy. -/
theorem envRun_loads_latest : (∀ sys events, RunSafe crc32 config hooks envSize ⟨sys, none⟩ events →
      ∀ envIdx env, (envRun crc32 config hooks envSize ⟨sys, none⟩ events).latest =
          some (envIdx, env) →
        (envRun crc32 config hooks envSize ⟨sys, none⟩ events).sys.copy envIdx = env →
        (envNandLoad crc32
          (envRun crc32 config hooks envSize ⟨sys, none⟩ events).sys).1 = some env) ∧
    ∀ sys htab first second envIdx env, WriteOutcome.Admissible crc32 first →
      WriteOutcome.Admissible crc32 second →
      (envNandSave crc32 config hooks envSize sys htab first second).saved = some (envIdx, env) →
      ¬ SaveSafe crc32 sys (sys.envFlags + 1) first second →
      (envNandLoad crc32 (envNandSave crc32 config hooks envSize sys htab first second).sys).1 =
        some ((envNandSave crc32 config hooks envSize sys htab first second).sys.copy
          (envIdx + 1)) := by
  constructor
  · intro sys events safe envIdx env latest intact
    have start : Recoverable crc32 ⟨sys, none⟩ := ⟨by simp, by simp⟩
    have recoverable := start.run events safe
    have good := recoverable.good envIdx env latest
    have newer := recoverable.newer envIdx env latest intact
    rw [envNandLoad_eq envIdx (intact.symm ▸ good), if_neg, intact]
    rw [intact]
    rintro ⟨otherGood, notNewer⟩
    exact notNewer (newer otherGood)
  intro sys htab first second envIdx env firstAdmissible secondAdmissible success notSafe
  have notRecognised := mt (saveRecognised_iff_saveSafe firstAdmissible success).1 notSafe
  rw [saveRecognised_iff success, Classical.not_imp] at notRecognised
  rcases envNandSave_cases sys htab firstAdmissible secondAdmissible with
    ⟨location, written, saved, good, intact⟩ | ⟨failed, -⟩
  · obtain ⟨rfl, rfl⟩ := Prod.mk.inj (some.inj (saved.symm.trans success))
    rw [envNandLoad_eq location (intact.symm ▸ good), if_pos]
    rw [intact]
    exact notRecognised
  · rw [failed] at success
    cases success

def beforeWrap (serial : BitVec 8) : EnvSystem :=
  ⟨⟨0, serial, [97, 61, 49, 0, 0]⟩, ⟨0, serial + 1, [97, 61, 50, 0, 0]⟩, .INVALID, 0⟩

/-- The serial number goes from 255 to 0. -/
theorem envRun_loads_latest_wrap : ∃ htab, (hcreateR 2 >>= fun created =>
        hsearchR .permissive created [97] (some [52]) .enter 0) =
        some (⟨1, some 3, none⟩, htab) ∧
      (envNandLoad (fun _ => 0) (envRun (fun _ => 0) .default .permissive 5
        ⟨beforeWrap 254, none⟩ [.reboot, .save htab .ok .ok]).sys).1 =
        some ⟨0, 0, [97, 61, 52, 0, 0]⟩ := by
  refine ⟨⟨(List.replicate 6 ⟨USED_FREE, ⟨none, none⟩⟩).set 3
    ⟨3, ⟨some [97], some [52]⟩⟩, 5, 1⟩, by decide, ?_⟩
  apply envRun_loads_latest.1 (beforeWrap 254) _ _ 0
  · decide
  · decide
  · refine ⟨trivial, runSafe_of_succeeds _ (tracked_envNandLoad _) ?_⟩
    simp [EnvEvent.Succeeds, WriteOutcome.Admissible]

/-- A save fails with the serial number 255, and the next one has the number 0. -/
theorem envRun_loads_older : (do
      let created ← hcreateR 2
      let (_, failed) ← hsearchR .permissive created [97] (some [51]) .enter 0
      let (_, saved) ← hsearchR .permissive created [97] (some [52]) .enter 0
      let state := envRun (fun _ => 0) .default .permissive 5 ⟨beforeWrap 253, none⟩
        [.reboot, .save failed .untouched .untouched, .save saved .ok .ok]
      return (state.latest, state.sys.copy 0, (envNandLoad (fun _ => 0) state.sys).1)) =
    some (some (0, ⟨0, 0, [97, 61, 52, 0, 0]⟩), ⟨0, 0, [97, 61, 52, 0, 0]⟩,
      some ⟨0, 254, [97, 61, 50, 0, 0]⟩) := by decide

end Recovery

end UBoot
