import UBoot.FwEnvFlash

/-!
# Flushes that are interrupted

Runs of the Linux tool on a redundant environment with incremental flags.  As long as
each flush that writes is the first one after its `fw_env_open`, it writes to the copy
that is not selected, with the next flag.  So an interrupted flush leaves the selected
copy, and a completed one is selected from then on.
-/

namespace UBoot

open Option Function

/-- A step of a run; `restart` ends the process. -/
inductive FwEvent (c : FwEnvConfig)
  | open
  | write (access : FwEnvAccess) (name value : CString)
  | flush (outcome : FlushOutcome c)
  | restart

/-- Whether an environment is open, and whether it was flushed since it was opened. -/
inductive FwSession
  | closed
  | fresh
  | flushed
  deriving DecidableEq, Repr

structure FwRun where
  state : FwEnvState
  latest : Bool × EnvImageRedundant
  session : FwSession

namespace FwRun

variable (c : FwEnvConfig)

def start (copies : Bool → EnvImageRedundant) : FwRun :=
  let state : FwEnvState := ⟨copies, false, false, none⟩
  let dev := (fwEnvOpen c state).2.devCurrent
  ⟨state, (dev, copies dev), .closed⟩

def flushed (r : FwRun) (state : FwEnvState) : FlushOutcome c → Bool × EnvImageRedundant
  | .completed =>
    if r.state.dirty then (!r.state.devCurrent, state.copies (!r.state.devCurrent)) else r.latest
  | .interrupted _ _ => r.latest

def step (r : FwRun) : FwEvent c → Option FwRun
  | .open =>
    let result := fwEnvOpen c r.state
    some ⟨result.2, r.latest, if result.1 = 0 then .fresh else .closed⟩
  | .write access name value =>
    if r.session = .closed then none
    else (r.state.write c access name value).map fun result => { r with state := result.2 }
  | .flush outcome =>
    if r.session = .closed then none
    else (fwEnvFlush c outcome r.state).map fun result =>
      ⟨result.2, flushed c r result.2 outcome, if r.state.dirty then .flushed else r.session⟩
  | .restart => some ⟨⟨r.state.copies, false, false, none⟩, r.latest, .closed⟩

def run (r : FwRun) : List (FwEvent c) → Option FwRun
  | [] => some r
  | event :: events => (step c r event).bind fun next => run next events

def FlushesFresh (r : FwRun) : List (FwEvent c) → Prop
  | [] => True
  | event :: events =>
    (∀ outcome, event = .flush outcome → r.state.dirty = true → r.session ≠ .flushed) ∧
      ∀ next, step c r event = some next → FlushesFresh next events

/-- An open selects the copy that the last completed flush has written, with its data; the
fallback names the other copy, and is refused if the checksum of that copy is bad. -/
structure OpensLatest (r : FwRun) : Prop where
  kept : r.state.copies r.latest.1 = r.latest.2
  good : c.crcOk r.latest.2 = true
  selected : (fwEnvOpen c r.state).2.devCurrent = r.latest.1
  opened : (fwEnvDataEnd c.envSize r.latest.2.data).isSome = true →
    (fwEnvOpen c r.state).1 = 0 ∧ (fwEnvOpen c r.state).2.image = some r.latest.2
  named : ∀ metadataOnly, (fwEnvOpenSelected c true metadataOnly r.state).2.devCurrent = !r.latest.1
  refused : c.crcOk (r.state.copies (!r.latest.1)) = false →
    (fwEnvOpenSelected c true false r.state).1 = -EINVAL ∧
      (fwEnvOpenSelected c true false r.state).2.image = r.state.image
  fallback : c.crcOk (r.state.copies (!r.latest.1)) = true →
    (fwEnvDataEnd c.envSize (r.state.copies (!r.latest.1)).data).isSome = true →
    (fwEnvOpenSelected c true false r.state).1 = 0 ∧
      (fwEnvOpenSelected c true false r.state).2.image = some (r.state.copies (!r.latest.1))

end FwRun

/-! ## The choice between the copies -/

def selected (c : FwEnvConfig) (copies : Bool → EnvImageRedundant) : Bool :=
  selectDev .INCREMENTAL (c.crcOk (copies false)) (c.crcOk (copies true)) (copies false).flags
    (copies true).flags

variable {c : FwEnvConfig}

section Choice

variable {copies : Bool → EnvImageRedundant} {dev : Bool} {image : EnvImageRedundant}

theorem selectByFlags_next (dev : Bool) (flags : BitVec 8) :
    selectByFlags .INCREMENTAL (if dev then flags else flags + 1)
      (if dev then flags + 1 else flags) = dev := by
  cases dev with
  | false =>
    simp only [selectByFlags, Bool.false_eq_true, if_false]
    split_ifs <;> first | rfl | (exfalso; bv_omega)
  | true =>
    simp only [selectByFlags, if_true]
    split_ifs <;> first | rfl | (exfalso; bv_omega)

theorem selected_of_bad (good : c.crcOk (copies dev) = true)
    (bad : c.crcOk (copies (!dev)) = false) : selected c copies = dev := by
  cases dev with
  | false =>
    rw [Bool.not_false] at bad
    simp [selected, selectDev, good, bad]
  | true =>
    rw [Bool.not_true] at bad
    simp [selected, selectDev, good, bad]

theorem selected_of_next (good : c.crcOk (copies dev) = true)
    (goodOther : c.crcOk (copies (!dev)) = true)
    (next : (copies dev).flags = (copies (!dev)).flags + 1) : selected c copies = dev := by
  have byFlags := selectByFlags_next dev (copies (!dev)).flags
  rw [← next] at byFlags
  cases dev with
  | false =>
    rw [Bool.not_false] at goodOther byFlags
    simp only [Bool.false_eq_true, if_false] at byFlags
    simp [selected, selectDev, good, goodOther, byFlags]
  | true =>
    rw [Bool.not_true] at goodOther byFlags
    simp only [if_true] at byFlags
    simp [selected, selectDev, good, goodOther, byFlags]

theorem good_selected (oneGood : ∃ dev, c.crcOk (copies dev) = true) :
    c.crcOk (copies (selected c copies)) = true := by
  by_cases both : c.crcOk (copies false) = true ∧ c.crcOk (copies true) = true
  · cases selected c copies with
    | false => exact both.1
    | true => exact both.2
  obtain ⟨dev, good⟩ := oneGood
  have bad : c.crcOk (copies (!dev)) = false := by
    by_contra goodOther
    rw [Bool.not_eq_false] at goodOther
    cases dev with
    | false => exact both ⟨good, goodOther⟩
    | true => exact both ⟨goodOther, good⟩
  rw [selected_of_bad good bad]
  exact good

variable {s : FwEnvState}

theorem fwEnvOpenSelected_eq (incremental : c.flagScheme = some .INCREMENTAL)
    (oneGood : ∃ dev, c.crcOk (s.copies dev) = true) (useFallback metadataOnly : Bool) :
    let dev := if useFallback then !selected c s.copies else selected c s.copies
    fwEnvOpenSelected c useFallback metadataOnly s =
      openDev c useFallback metadataOnly (s.copies dev) (c.crcOk (s.copies dev))
        { s with devCurrent := dev, dirty := openDirty c s } := by
  have notBoth : ¬((!c.crcOk (s.copies false)) = true ∧ (!c.crcOk (s.copies true)) = true) := by
    obtain ⟨dev, good⟩ := oneGood
    rintro ⟨bad, badOther⟩
    cases dev with
    | false => simp [good] at bad
    | true => simp [good] at badOther
  have devEq : selectDev .INCREMENTAL (c.crcOk (s.copies false)) (c.crcOk (s.copies true))
      (s.copies false).flags (s.copies true).flags = selected c s.copies := rfl
  intro dev
  unfold fwEnvOpenSelected
  rw [incremental]
  simp only [if_neg notBoth, devEq]
  change openDev c useFallback metadataOnly (if dev then _ else _) (if dev then _ else _)
    { s with devCurrent := dev, dirty := openDirty c s } = _
  generalize dev = chosen
  cases chosen with
  | false => rfl
  | true => rfl

variable (useFallback metadataOnly good : Bool)

theorem openDev_cases (image : EnvImageRedundant) :
    (openDev c useFallback metadataOnly image good s = (-EINVAL, s)) ∨
      openDev c useFallback metadataOnly image good s = (0, { s with image := some image }) := by
  unfold openDev
  split
  · exact .inl rfl
  · split
    · exact .inl rfl
    · exact .inr rfl

theorem devCurrent_openDev (image : EnvImageRedundant) :
    (openDev c useFallback metadataOnly image good s).2.devCurrent = s.devCurrent := by
  rcases openDev_cases useFallback metadataOnly good image with result | result
  · rw [result]
  · rw [result]

theorem openDev_good (useFallback : Bool)
    (ended : (fwEnvDataEnd c.envSize image.data).isSome = true) :
    openDev c useFallback false image true s = (0, { s with image := some image }) := by
  rw [openDev, if_neg (by simp), if_neg (by simp [Option.isSome_iff_ne_none.1 ended])]

theorem openDev_refused (image : EnvImageRedundant) :
    openDev c true false image false s = (-EINVAL, s) := by rw [openDev, if_pos (by simp)]

end Choice

/-! ## Runs -/

namespace FwRun

/-- The latest copy is good and selected, and a fresh environment was read from it. -/
structure Sound (c : FwEnvConfig) (r : FwRun) : Prop where
  kept : r.state.copies r.latest.1 = r.latest.2
  good : c.crcOk r.latest.2 = true
  selected : UBoot.selected c r.state.copies = r.latest.1
  fresh : r.session = .fresh → r.state.devCurrent = r.latest.1 ∧
    ∃ image, r.state.image = some image ∧ image.flags = r.latest.2.flags

section Step

variable {r next : FwRun}

theorem Sound.exists_good (sound : Sound c r) : ∃ dev, c.crcOk (r.state.copies dev) = true :=
  ⟨r.latest.1, by rw [sound.kept, sound.good]⟩

theorem Sound.opensLatest (incremental : c.flagScheme = some .INCREMENTAL) (sound : Sound c r) :
    OpensLatest c r := by
  have openEq := fwEnvOpenSelected_eq incremental sound.exists_good false false
  have fallbackEq (metadataOnly : Bool) :=
    fwEnvOpenSelected_eq incremental sound.exists_good true metadataOnly
  simp only [Bool.false_eq_true, if_false, if_true, sound.selected] at openEq fallbackEq
  rw [sound.kept, sound.good] at openEq
  constructor
  case kept => exact sound.kept
  case good => exact sound.good
  case selected => rw [fwEnvOpen, openEq, devCurrent_openDev]
  case opened =>
    intro ended
    rw [fwEnvOpen, openEq, openDev_good false ended]
    exact ⟨rfl, rfl⟩
  case named =>
    intro metadataOnly
    rw [fallbackEq, devCurrent_openDev]
  case refused =>
    intro bad
    rw [fallbackEq, bad, openDev_refused]
    exact ⟨rfl, rfl⟩
  case fallback =>
    intro good ended
    rw [fallbackEq, good, openDev_good true ended]
    exact ⟨rfl, rfl⟩

theorem Sound.open (incremental : c.flagScheme = some .INCREMENTAL) (sound : Sound c r)
    (result : step c r .open = some next) : Sound c next := by
  have openEq := fwEnvOpenSelected_eq incremental sound.exists_good false false
  simp only [Bool.false_eq_true, if_false, sound.selected] at openEq
  rw [sound.kept, sound.good] at openEq
  rw [step, fwEnvOpen, openEq, some.injEq] at result
  subst result
  rcases openDev_cases false false true r.latest.2 with refused | opened
  · rw [refused]
    exact ⟨sound.kept, sound.good, sound.selected, by simp [EINVAL]⟩
  · rw [opened]
    exact ⟨sound.kept, sound.good, sound.selected, fun _ => ⟨rfl, r.latest.2, rfl, rfl⟩⟩

theorem Sound.write {access : FwEnvAccess} {name value : CString} (sound : Sound c r)
    (result : step c r (.write access name value) = some next) : Sound c next := by
  rw [step] at result
  split at result
  case isTrue => cases result
  case isFalse =>
    obtain ⟨⟨ret, state⟩, written, rfl⟩ := map_eq_some_iff.1 result
    unfold FwEnvState.write at written
    split at written
    case h_1 => cases written
    case h_2 image opened =>
      split at written
      case h_1 => cases written
      case h_2 =>
        cases written
        refine ⟨sound.kept, sound.good, sound.selected, fun isFresh => ?_⟩
        obtain ⟨current, image', opened', flags⟩ := sound.fresh isFresh
        rw [opened, some.injEq] at opened'
        subst opened'
        exact ⟨current, _, rfl, flags⟩

theorem Sound.completed (sound : Sound c r) {image : EnvImageRedundant}
    (good : c.crcOk image = true) (flags : image.flags = r.latest.2.flags + 1)
    (current : r.state.devCurrent = r.latest.1) :
    UBoot.selected c (update r.state.copies (!r.state.devCurrent) image) = !r.state.devCurrent := by
  have other : update r.state.copies (!r.state.devCurrent) image r.state.devCurrent =
      r.latest.2 := by
    rw [update_of_ne (by simp), current, sound.kept]
  apply selected_of_next
  · rw [update_self, good]
  · rw [Bool.not_not, other, sound.good]
  · rw [update_self, Bool.not_not, other, flags]

theorem Sound.interrupted (sound : Sound c r) {left : EnvImageRedundant}
    (bad : c.crcOk left = false) (current : r.state.devCurrent = r.latest.1) :
    update r.state.copies (!r.state.devCurrent) left r.latest.1 = r.latest.2 ∧
      UBoot.selected c (update r.state.copies (!r.state.devCurrent) left) = r.latest.1 := by
  have other : update r.state.copies (!r.state.devCurrent) left r.latest.1 = r.latest.2 := by
    rw [current, update_of_ne (by simp), sound.kept]
  refine ⟨other, selected_of_bad ?_ ?_⟩
  · rw [other, sound.good]
  · rw [current, update_self, bad]

theorem Sound.flush (incremental : c.flagScheme = some .INCREMENTAL) (sound : Sound c r)
    {outcome : FlushOutcome c} (first : r.state.dirty = true → r.session ≠ .flushed)
    (result : step c r (.flush outcome) = some next) : Sound c next := by
  rw [step] at result
  split at result
  case isTrue => cases result
  case isFalse opened =>
    have isFresh : r.state.dirty = true → r.session = .fresh := by
      intro dirty
      cases session : r.session with
      | closed => exact absurd session opened
      | fresh => rfl
      | flushed => exact absurd session (first dirty)
    obtain ⟨⟨ret, state⟩, flushedTo, rfl⟩ := map_eq_some_iff.1 result
    cases dirty : r.state.dirty with
    | false =>
      unfold fwEnvFlush at flushedTo
      rw [incremental, dirty] at flushedTo
      split at flushedTo
      case h_1 => cases flushedTo
      case h_2 =>
        cases flushedTo
        have same : FwRun.flushed c r r.state outcome = r.latest := by
          cases outcome with
          | completed => rw [FwRun.flushed, dirty, if_neg (by simp)]
          | interrupted left bad => rfl
        simp only [same, Bool.false_eq_true, if_false]
        exact sound
    | true =>
      obtain ⟨current, image, opened, flags⟩ := sound.fresh (isFresh dirty)
      unfold fwEnvFlush at flushedTo
      rw [opened, incremental, dirty] at flushedTo
      cases flushedTo
      cases outcome with
      | completed =>
        let written : EnvImageRedundant :=
          ⟨c.crc32 (image.data.read 0 c.envSize), image.flags + 1, image.data⟩
        have good : c.crcOk written = true := by simp [FwEnvConfig.crcOk, written]
        have nextFlags : written.flags = r.latest.2.flags + 1 := by rw [← flags]
        have selected := sound.completed good nextFlags current
        have copied : update r.state.copies (!r.state.devCurrent) written
            (!r.state.devCurrent) = written := update_self ..
        simp only [FwRun.flushed, dirty, if_true]
        refine ⟨rfl, ?_, selected, by simp⟩
        change c.crcOk (update r.state.copies (!r.state.devCurrent) written
          (!r.state.devCurrent)) = true
        rw [copied, good]
      | interrupted left bad =>
        obtain ⟨kept, selected⟩ := sound.interrupted bad current
        exact ⟨kept, sound.good, selected, by simp⟩

variable (incremental : c.flagScheme = some .INCREMENTAL)

include incremental

theorem Sound.step (sound : Sound c r) {event : FwEvent c}
    (first : ∀ outcome, event = .flush outcome → r.state.dirty = true → r.session ≠ .flushed)
    (result : FwRun.step c r event = some next) : Sound c next := by
  cases event with
  | «open» => exact sound.open incremental result
  | write access name value => exact sound.write result
  | flush outcome => exact sound.flush incremental (first outcome rfl) result
  | restart =>
    cases result
    exact ⟨sound.kept, sound.good, sound.selected, by simp⟩

theorem Sound.run {events : List (FwEvent c)} :
    ∀ {r last : FwRun}, Sound c r → FlushesFresh c r events → FwRun.run c r events = some last →
      Sound c last := by
  induction events with
  | nil =>
    intro r last sound _ result
    cases result
    exact sound
  | cons event events ih =>
    intro r last sound fresh result
    obtain ⟨next, stepped, rest⟩ := bind_eq_some_iff.1 result
    exact ih (sound.step incremental fresh.1 stepped) (fresh.2 next stepped) rest

theorem sound_start {copies : Bool → EnvImageRedundant}
    (oneGood : ∃ dev, c.crcOk (copies dev) = true) : Sound c (start c copies) := by
  have openEq := fwEnvOpenSelected_eq (s := ⟨copies, false, false, none⟩) incremental oneGood false
    false
  have dev : (fwEnvOpen c ⟨copies, false, false, none⟩).2.devCurrent = UBoot.selected c copies := by
    rw [fwEnvOpen, openEq, devCurrent_openDev]
    rfl
  unfold start
  simp only [dev]
  exact ⟨rfl, good_selected oneGood, rfl, by simp⟩

end Step

/-- From two copies of which one is good, with any flags: in every state that is reached by a run
in which each flush that writes is the first one since its open, an open selects the copy that
the last completed flush has written, or the one that was selected first. -/
theorem opensLatest_of_flushesFresh {c : FwEnvConfig}
    (incremental : c.flagScheme = some .INCREMENTAL) {copies : Bool → EnvImageRedundant}
    (oneGood : ∃ dev, c.crcOk (copies dev) = true) {events : List (FwEvent c)}
    (fresh : FlushesFresh c (start c copies) events) {last : FwRun}
    (reached : run c (start c copies) events = some last) : OpensLatest c last :=
  ((sound_start incremental oneGood).run incremental fresh reached).opensLatest incremental

theorem flushesFresh_open_flush {c : FwEnvConfig} {r : FwRun} {outcome : FlushOutcome c}
    {events : List (FwEvent c)} (rest : ∀ next, FlushesFresh c next events) :
    FlushesFresh c r (.open :: .flush outcome :: events) := by
  refine ⟨fun _ impossible => (by cases impossible), fun opened stepped => ?_⟩
  refine ⟨fun _ _ _ => ?_, fun next _ => rest next⟩
  cases stepped
  split <;> simp

def sampleFwEnvConfig : FwEnvConfig where
  envSize := 4
  device := fun _ => ⟨.NANDFLASH, false⟩
  defaultEnvironment := [97, 61, 49, 0]
  crc32 := fun _ => 0

def blankCopy (crc : BitVec 32) (flags : BitVec 8) : EnvImageRedundant := ⟨crc, flags, fun _ => 0⟩

def sampleCopies (dev : Bool) : EnvImageRedundant :=
  if dev then blankCopy 1 7 else blankCopy 0 255

def interruptedFlush : FlushOutcome sampleFwEnvConfig := .interrupted (blankCopy 1 9) rfl

/-- A completed flush in a process, and an interrupted one in the next process. -/
theorem opensLatest_of_flushesFresh_sample :
    ∃ last, run sampleFwEnvConfig (start sampleFwEnvConfig sampleCopies)
        [.open, .flush .completed, .restart, .open, .flush interruptedFlush] = some last ∧
      OpensLatest sampleFwEnvConfig last := by
  obtain ⟨last, reached⟩ := isSome_iff_exists.1
    (by decide : (run sampleFwEnvConfig (start sampleFwEnvConfig sampleCopies)
      [.open, .flush .completed, .restart, .open, .flush interruptedFlush]).isSome = true)
  refine ⟨last, reached, opensLatest_of_flushesFresh rfl ⟨false, rfl⟩ ?_ reached⟩
  apply flushesFresh_open_flush
  intro next
  refine ⟨fun _ impossible => (by cases impossible), fun restarted _ => ?_⟩
  exact flushesFresh_open_flush fun _ => trivial

/-- A second flush in one session destroys the copy that the first one has written. -/
theorem not_opensLatest : ∃ last, run sampleFwEnvConfig (start sampleFwEnvConfig sampleCopies)
        [.open, .flush .completed, .flush interruptedFlush] = some last ∧
      ¬OpensLatest sampleFwEnvConfig last := by
  obtain ⟨last, reached⟩ := isSome_iff_exists.1
    (by decide : (run sampleFwEnvConfig (start sampleFwEnvConfig sampleCopies)
      [.open, .flush .completed, .flush interruptedFlush]).isSome = true)
  refine ⟨last, reached, fun opens => ?_⟩
  have kept := congrArg EnvImageRedundant.crc opens.kept
  cases reached
  cases kept

end FwRun

end UBoot
