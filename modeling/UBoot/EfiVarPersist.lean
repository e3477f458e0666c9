import Mathlib.Data.List.Induction
import UBoot.EfiVariableMap

/-!
# Variables in a file

The variables that match are collected in a file, and variables are restored from a
file: each one that may be restored and is not there yet is put behind the others.
Collecting the variables that survive and restoring them into an empty buffer gives
those variables again.
-/

namespace UBoot

open List RecordFormat Option Nat Memory EfiVariable Layout

structure VariableFile (file : Memory) (fs : List EfiVariable) : Prop where
  packed : efiVarFormat.Packed file sizeofEfiVarFile fs
  length : bufLength file = sizeofEfiVarFile + efiVarFormat.total fs
  named : ∀ f ∈ fs, f.name.val ≠ []

def EfiVariable.restorable (safe : Bool) (f : EfiVariable) : Bool :=
  (safe || efiAuthVarGetType f.name f.guid == .NONE && f.guid != shimLockGuid &&
    hasAttribute f.attr EFI_VARIABLE_NON_VOLATILE) && !f.data.isEmpty

def restoreOne (c : EfiVarConfig) (safe : Bool) (vs : List EfiVariable) (f : EfiVariable) :
    List EfiVariable :=
  if f.restorable safe = true ∧ variableMap vs f.key = none ∧
      sizeofEfiVarFile + efiVarFormat.total vs + f.bytes.length ≤ c.bufSize then vs ++ [f]
  else vs

variable {c : EfiVarConfig}

section Restore

variable {s s' : EfiVarStore} {file : Memory} {safe : Bool} {a rounds : Nat} {f : EfiVariable}
  {vs fs : List EfiVariable}

theorem here_of_packed (packed : efiVarFormat.Packed file a (f :: fs))
    (length : bufLength file = a + efiVarFormat.total (f :: fs)) : EfiVariable.Here file a f := by
  have size := size_ge f
  have bound : bufLength file < 2 ^ 32 := readLE_lt file 16 4
  rw [total_cons] at length
  exact here_of_at packed.1 (by omega)

theorem restoreSkips_eq (here : EfiVariable.Here file a f) :
    restoreSkips file a f.name safe = !f.restorable safe := by
  unfold restoreSkips restorable
  rw [here.guid, here.attr, here.length]
  cases f.data <;> cases safe <;> simp [bne]

theorem restoreLoop_step (safe : Bool) (stores : Stores c s vs) (here : EfiVariable.Here file a f)
    (aligned : 8 ∣ a) (inside : a + efiVarFormat.size f ≤ bufLength file)
    (named : f.name.val ≠ []) :
    (∃ s', Stores c s' (restoreOne c safe vs f) ∧ ∀ rounds,
      restoreLoop c file safe (rounds + 1) a s =
        restoreLoop c file safe rounds (a + efiVarFormat.size f) s') ∨
    2 ^ c.addressBits ≤ bufLength s.buf + f.bytes.length ∧ ∀ rounds,
      restoreLoop c file safe (rounds + 1) a s = none := by
  have size := size_ge f
  have strlen : u16Strlen file (bufLength file) (varName a) = _ := here.strlen (by omega)
  have nameEq : (⟨u16Units file f.name.val.length (varName a), zero_notMem_u16Units _ _ _⟩ :
      U16String) = f.name :=
    Subtype.ext (u16Units_eq here.name f.name.property le_rfl)
  have round : ∀ rounds, restoreLoop c file safe (rounds + 1) a s =
      if f.restorable safe = false then
        restoreLoop c file safe rounds (a + efiVarFormat.size f) s
      else (efiVarMemFind c s f.guid f.name).bind fun found =>
        if found.var.isSome then
          restoreLoop c file safe rounds (a + efiVarFormat.size f) found.store
        else (efiVarMemIns c found.store f.name f.guid f.attr f.data [] f.time).bind
          fun ran => restoreLoop c file safe rounds (a + efiVarFormat.size f) ran.2 := by
    intro rounds
    rw [restoreLoop, if_neg (by omega)]
    simp only [strlen, bind_eq_bind, bind_some, nameEq, restoreSkips_eq here, here.next aligned]
    simp [here.guid, here.attr, here.time, here.length, here.data]
  cases restorable : f.restorable safe with
  | false =>
    refine .inl ⟨s, ?_, fun rounds => by rw [round, if_pos restorable]⟩
    rw [restoreOne, if_neg (by simp [restorable])]
    exact stores
  | true =>
    obtain ⟨found, finds, stores', sameBuf, isVar⟩ := stores.find f.guid f.name
    simp only [restorable, finds, bind_some, Bool.true_eq_false, if_false, isVar named] at round
    rcases stores.located f.key with ⟨absent, noVar⟩ | ⟨v, b, isThere, there, -⟩
    · simp only [EfiVariable.key] at noVar
      simp only [noVar, isSome_none, Bool.false_eq_true, if_false] at round
      have fresh := variableMap_none.1 absent
      have filled : f.data ≠ [] := by
        rintro empty
        simp [EfiVariable.restorable, empty] at restorable
      by_cases room : bufLength found.store.buf + f.bytes.length ≤ c.bufSize
      · obtain ⟨s', inserted, layout, current⟩ := stores'.toLayout.ins f (append_nil _).symm room
        refine .inl ⟨s', ?_, fun rounds => by rw [round, inserted, bind_some]⟩
        rw [stores'.length] at room
        rw [restoreOne, if_pos ⟨restorable, absent, room⟩]
        exact stores'.add layout current fresh named filled
      have refused := ins_refused f (append_nil f.data).symm
        (show c.bufSize < bufLength found.store.buf + f.bytes.length by omega)
      by_cases wraps : c.bufSize < (bufLength found.store.buf + f.bytes.length) % 2 ^ c.addressBits
      · rw [if_pos wraps] at refused
        refine .inl ⟨found.store, ?_, fun rounds => by rw [round, refused, bind_some]⟩
        rw [stores'.length] at room
        rw [restoreOne, if_neg fun kept => room kept.2.2]
        exact stores'
      rw [if_neg wraps] at refused
      refine .inr ⟨?_, fun rounds => by rw [round, refused, bind_none]⟩
      by_contra small
      rw [← sameBuf, not_le] at small
      rw [mod_eq_of_lt small] at wraps
      omega
    · simp only [EfiVariable.key] at there
      simp only [there, isSome_some, if_true] at round
      refine .inl ⟨found.store, ?_, round⟩
      rw [restoreOne, if_neg fun kept => by simp [isThere] at kept]
      exact stores'

/-- Restoring leaves the variables that are there and adds those that may be added, unless it
runs out of rounds or the sizes wrap. -/
theorem restoreLoop_cases (safe : Bool) (rounds : Nat) (stores : Stores c s vs)
    (packed : efiVarFormat.Packed file a fs) (length : bufLength file = a + efiVarFormat.total fs)
    (aligned : 8 ∣ a) (named : ∀ f ∈ fs, f.name.val ≠ []) :
    (∃ s', restoreLoop c file safe rounds a s = some s' ∧
      Stores c s' (fs.foldl (restoreOne c safe) vs)) ∨
    restoreLoop c file safe rounds a s = none ∧ (rounds ≤ fs.length ∨
      ∃ f ∈ fs, 2 ^ c.addressBits < c.bufSize + 8 + f.bytes.length) := by
  induction fs generalizing a s vs rounds with
  | nil =>
    cases rounds with
    | zero => exact .inr ⟨rfl, .inl le_rfl⟩
    | succ rounds => exact .inl ⟨s, by rw [restoreLoop, if_pos (by simp [length])], stores⟩
  | cons f fs ih =>
    have here := here_of_packed packed length
    have used := stores.length
    have bound := stores.total_lt
    rw [total_cons] at length
    rw [forall_mem_cons] at named
    cases rounds with
    | zero => exact .inr ⟨rfl, .inl (zero_le _)⟩
    | succ rounds =>
      rcases restoreLoop_step safe stores here aligned (by omega) named.1 with
        ⟨t, stores', round⟩ | ⟨wraps, stuck⟩
      · rw [round]
        rcases ih rounds stores' packed.2 (by omega)
          (Nat.dvd_add aligned (align_dvd_size f)) named.2 with done |
          ⟨none, few | ⟨g, member, wraps⟩⟩
        · exact .inl done
        · exact .inr ⟨none, .inl (succ_le_succ few)⟩
        · exact .inr ⟨none, .inr ⟨g, mem_cons_of_mem f member, wraps⟩⟩
      · exact .inr ⟨stuck rounds, .inr ⟨f, mem_cons_self, by omega⟩⟩

/-- Restoring into an empty buffer what fits gives the variables that may be restored. -/
theorem foldl_restoreOne (distinct : (fs.map key).Nodup)
    (fits : efiVarFormat.Fits c.bufSize sizeofEfiVarFile fs) :
    fs.foldl (restoreOne c safe) [] = fs.filter (restorable safe) := by
  induction fs using reverseRecOn with
  | nil => rfl
  | append_singleton fs f ih =>
    have earlier := distinct.sublist (List.Sublist.map key (sublist_append_left fs [f]))
    have absent : variableMap (fs.filter (restorable safe)) f.key = none := by
      rw [variableMap_none]
      intro w member
      exact notBefore_of_distinct distinct w (mem_of_mem_filter member)
    have room : sizeofEfiVarFile + efiVarFormat.total (fs.filter (restorable safe)) +
        f.bytes.length ≤ c.bufSize := by
      have kept := fits.sublist
        (List.Sublist.append_right (filter_sublist (p := restorable safe)) [f])
        le_rfl
      exact (fits_append.1 kept).2.1
    rw [foldl_append, ih earlier (fits_append.1 fits).1, filter_append,
      foldl_cons, foldl_nil, restoreOne]
    cases restorable : f.restorable safe with
    | true => simp [absent, room, restorable]
    | false => simp [restorable]

end Restore

/-! ## Collecting variables -/

def EfiVariable.matches (mask : BitVec 32) (v : EfiVariable) : Bool := v.attr &&& mask == mask

section Collect

variable {m b : Memory} {mask : BitVec 32} {lenp a n varTo rounds : Nat} {vs : List EfiVariable}

/-- The loop copies the variables that match one behind the other, if there is room. -/
theorem collectLoop_eq (packed : efiVarFormat.Packed m a vs)
    (length : bufLength m = a + efiVarFormat.total vs) (enough : vs.length < rounds)
    (short : ∀ v ∈ vs, v.name.val.length < c.bufSize) :
    ∃ b', collectLoop c m lenp mask rounds a n varTo (some b) =
        some (n + efiVarFormat.total (vs.filter (EfiVariable.matches mask)), some b') ∧
      (∀ x < varTo, b' x = b x) ∧
      (n + efiVarFormat.total (vs.filter (EfiVariable.matches mask)) ≤ lenp →
        efiVarFormat.Packed b' varTo (vs.filter (EfiVariable.matches mask))) := by
  induction vs generalizing a n varTo b rounds with
  | nil =>
    obtain _ | rounds := rounds
    · omega
    rw [collectLoop, if_pos (by simp [length])]
    exact ⟨b, rfl, fun _ _ => rfl, fun _ => trivial⟩
  | cons v vs ih =>
    obtain _ | rounds := rounds
    · omega
    have here := here_of_packed packed length
    have size := size_ge v
    rw [total_cons] at length
    rw [forall_mem_cons] at short
    rw [length_cons] at enough
    rw [collectLoop, if_neg (by omega)]
    simp only [here.entryLen short.1, bind_eq_bind, bind_some, here.attr]
    by_cases matched : v.attr &&& mask = mask
    · have kept : v.matches mask = true := by simpa [EfiVariable.matches] using matched
      rw [if_neg (by simpa using matched), filter_cons_of_pos kept, total_cons, ← Nat.add_assoc]
      split
      · obtain ⟨b', ran, below, copied⟩ := ih (n := n + efiVarFormat.size v)
          (b := b.write varTo (m.read a (efiVarFormat.size v))) packed.2 (by omega)
          (show vs.length < rounds by omega) short.2
        refine ⟨b', ran, ?_, fun room => ⟨?_, copied room⟩⟩
        · intro x less
          rw [below x (by omega)]
          exact write_of_lt less
        apply At.transfer packed.1
        intro i inside
        have inRead := lt_of_lt_of_le inside (length_le_size (f := efiVarFormat) v)
        rw [below _ (by omega), write_inside (by simpa using inRead), getElem_read]
      · obtain ⟨b', ran, below, -⟩ := ih (n := n + efiVarFormat.size v)
          (b := b) packed.2 (by omega) (show vs.length < rounds by omega) short.2
        exact ⟨b', ran, below, fun room => by omega⟩
    · have dropped : v.matches mask = false := by simpa [EfiVariable.matches] using matched
      rw [if_pos (by simpa using matched), filter_cons_of_neg (by simp [dropped])]
      exact ih packed.2 (by omega) (by omega) short.2

theorem fileHeader_fields (b : Memory) {length : Nat} (small : length < 2 ^ 32)
    (crc32 : BitVec 32) :
    let file := b.write 0 (fileHeader length crc32)
    file.readLE 0 8 = 0 ∧ file.readLE 8 8 = EFI_VAR_FILE_MAGIC ∧ bufLength file = length ∧
      file.readLE 20 4 = crc32.toNat := by
  intro file
  have read : file.read 0 (8 + (8 + (4 + 4))) = fileHeader length crc32 := by
    have same := read_write_same b 0 (fileHeader length crc32)
    rwa [show (fileHeader length crc32).length = 8 + (8 + (4 + 4)) by simp [fileHeader]] at same
  rw [read_add, read_add, read_add, fileHeader, append_assoc, append_assoc] at read
  obtain ⟨reserved, read⟩ := append_inj read (by simp)
  obtain ⟨magic, read⟩ := append_inj read (by simp)
  obtain ⟨isLength, crc⟩ := append_inj read (by simp)
  refine ⟨?_, ?_, ?_, ?_⟩
  · rw [readLE, reserved, leNat_leBytes]
    rfl
  · rw [readLE, magic, leNat_leBytes]
    rfl
  · rw [bufLength, readLE, isLength, leNat_leBytes]
    exact mod_eq_of_lt small
  · rw [readLE, crc, leNat_leBytes]
    exact mod_eq_of_lt crc32.isLt

theorem efiVarCollectMem_file (layout : Layout c m vs) (named : ∀ v ∈ vs, v.name.val ≠ [])
    (room : sizeofEfiVarFile + efiVarFormat.total (vs.filter (EfiVariable.matches mask)) ≤ lenp) :
    ∃ len file, efiVarCollectMem c m (some b) lenp mask = some (.SUCCESS, len, some file) ∧
      VariableFile file (vs.filter (EfiVariable.matches mask)) ∧ fileAccepted c file = true := by
  obtain ⟨b', collected, -, copied⟩ := collectLoop_eq (c := c) (b := b) layout.packed
    layout.length layout.length_lt (fun v member => layout.nameShort member)
  have fewer : efiVarFormat.total (vs.filter (EfiVariable.matches mask)) ≤
      efiVarFormat.total vs := total_sublist filter_sublist
  have bound : bufLength m < 2 ^ 32 := readLE_lt m 16 4
  have used := layout.length
  unfold efiVarCollectMem
  rw [collected]
  simp only [Option.pure_def, bind_eq_bind, bind_some]
  rw [if_neg (by omega)]
  generalize isCrc : c.crc32 (b'.read sizeofEfiVarFile _) = crc
  obtain ⟨reserved, magic, isLength, crcField⟩ := fileHeader_fields b'
    (show sizeofEfiVarFile + efiVarFormat.total (vs.filter (EfiVariable.matches mask)) < 2 ^ 32
      by omega) crc
  have sameBehind : ∀ x, sizeofEfiVarFile ≤ x → b'.write 0 (fileHeader (sizeofEfiVarFile +
      efiVarFormat.total (vs.filter (EfiVariable.matches mask))) crc) x = b' x := by
    intro x behind
    exact write_of_ge (by simpa [fileHeader, sizeofEfiVarFile] using behind)
  refine ⟨_, _, rfl, ⟨?_, isLength, ?_⟩, ?_⟩
  · exact (copied room).transfer fun i _ => sameBehind _ (by omega)
  · exact fun f member => named f (mem_of_mem_filter member)
  have sameContents : Memory.read (b'.write 0 (fileHeader (sizeofEfiVarFile +
      efiVarFormat.total (vs.filter (EfiVariable.matches mask))) crc)) sizeofEfiVarFile
        (efiVarFormat.total (vs.filter (EfiVariable.matches mask))) =
      b'.read sizeofEfiVarFile (efiVarFormat.total (vs.filter (EfiVariable.matches mask))) :=
    read_congr fun i _ => sameBehind _ (by omega)
  rw [Nat.add_sub_cancel_left] at isCrc
  unfold fileAccepted
  rw [reserved, magic, isLength, crcField, Nat.add_sub_cancel_left, sameContents, isCrc]
  simp

theorem length_le_of_collected {len : Nat} {file : Memory} (layout : Layout c m vs)
    (run : efiVarCollectMem c m (some b) lenp mask = some (.SUCCESS, len, some file)) :
    sizeofEfiVarFile + efiVarFormat.total (vs.filter (EfiVariable.matches mask)) ≤ lenp := by
  obtain ⟨b', collected, -⟩ := collectLoop_eq (c := c) (b := b) layout.packed
    layout.length layout.length_lt (fun v member => layout.nameShort member)
  unfold efiVarCollectMem at run
  rw [collected] at run
  simp only [Option.pure_def, bind_eq_bind, bind_some] at run
  split at run
  · simp at run
  · omega

end Collect

/-! ## Collecting and restoring -/

/-- A variable that survives a restart: not volatile, no variable of secure boot and none of
the vendor whose variables only that vendor may set. -/
def EfiVariable.persistent (v : EfiVariable) : Bool :=
  hasAttribute v.attr EFI_VARIABLE_NON_VOLATILE && efiAuthVarGetType v.name v.guid == .NONE &&
    v.guid != shimLockGuid

theorem matches_nonVolatile (v : EfiVariable) :
    v.matches EFI_VARIABLE_NON_VOLATILE = hasAttribute v.attr EFI_VARIABLE_NON_VOLATILE := by
  have bit : v.attr &&& EFI_VARIABLE_NON_VOLATILE = 0 ∨
      v.attr &&& EFI_VARIABLE_NON_VOLATILE = 1 := by
    have value : (v.attr &&& EFI_VARIABLE_NON_VOLATILE).toNat = v.attr.toNat % 2 := by
      exact and_one_is_mod _
    rcases mod_two_eq_zero_or_one v.attr.toNat with even | odd
    · exact .inl (BitVec.eq_of_toNat_eq (value.trans even))
    · exact .inr (BitVec.eq_of_toNat_eq (value.trans odd))
  unfold EfiVariable.matches hasAttribute
  rcases bit with isZero | isOne
  · rw [isZero]
    rfl
  · rw [isOne]
    rfl

/-- What is collected and restored into an empty buffer are the persistent variables. -/
theorem Stores.persisted {c : EfiVarConfig} {s e : EfiVarStore} {vs : List EfiVariable}
    {b file : Memory} {lenp len : Nat} (stores : Stores c s vs) (empty : Stores c e [])
    (run : efiVarCollectMem c s.buf (some b) lenp EFI_VARIABLE_NON_VOLATILE =
      some (.SUCCESS, len, some file)) :
    ∃ e', efiVarRestore c e file false = some (.SUCCESS, e') ∧
      Stores c e' (vs.filter EfiVariable.persistent) := by
  obtain ⟨len', file', ran, holds, accepted⟩ := efiVarCollectMem_file (b := b) stores.toLayout
    stores.named (length_le_of_collected stores.toLayout run)
  rw [ran, some.injEq, Prod.mk.injEq, Prod.mk.injEq, some.injEq] at run
  obtain ⟨-, -, rfl⟩ := run
  have sub : (vs.filter (EfiVariable.matches EFI_VARIABLE_NON_VOLATILE)).Sublist vs :=
    filter_sublist
  have bound := c.bufSize_lt
  have wide : 2 ^ 32 ≤ 2 ^ c.addressBits := Nat.pow_le_pow_right (by decide) c.addressBits_ge
  have few : (vs.filter (EfiVariable.matches EFI_VARIABLE_NON_VOLATILE)).length <
      bufLength file' := by
    have sizes := length_le_total (vs.filter (EfiVariable.matches EFI_VARIABLE_NON_VOLATILE))
    rw [holds.length, sizeofEfiVarFile]
    omega
  obtain ⟨e', restored, result⟩ | ⟨-, short | ⟨f, member, wraps⟩⟩ :=
    restoreLoop_cases false (bufLength file') empty holds.packed holds.length (by decide)
      holds.named
  · rw [foldl_restoreOne (stores.distinct.sublist (sub.map _)) (stores.fits.sublist sub le_rfl),
      List.filter_filter] at result
    refine ⟨e', ?_, ?_⟩
    · unfold efiVarRestore
      simp [accepted, restored]
    rw [filter_congr] at result
    · exact result
    intro v member
    have nonempty : v.data.isEmpty = false := by simpa using stores.filled v member
    rw [matches_nonVolatile, EfiVariable.restorable, EfiVariable.persistent, nonempty]
    cases hasAttribute v.attr EFI_VARIABLE_NON_VOLATILE <;> simp
  · omega
  · have short : sizeofEfiVarFile + f.bytes.length ≤ c.bufSize :=
      stores.fits.length_le (sub.subset member)
    unfold sizeofEfiVarFile at short
    omega

end UBoot
