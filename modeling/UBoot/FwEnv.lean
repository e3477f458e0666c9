import UBoot.ByteMemory
import UBoot.EnvText

/-!
# The environment of the Linux tool

The functions of `tools/env/fw_env.c` that look variables up and edit them in the data
area of an environment image.  Positions are offsets into the data area.  An access
outside of the area, or of the name that is looked for, has no result.  Each round of a
loop over the area passes at least one byte, so a loop that is given one round more than
the area has bytes never runs out of rounds.
-/

namespace UBoot

structure FwEnvironment where
  data : Memory
  dirty : Bool

/-- Which accesses to a variable the flags forbid, and its default value.  The flags can be
variables of the environment themselves. -/
structure FwEnvAccess where
  preventDelete : Memory → CString → Bool
  preventOverwr : Memory → CString → Bool
  preventNondefOverwr : Memory → CString → Bool
  preventCreate : Memory → CString → Bool
  fwGetdefenv : CString → Option CString

/-- The first NUL among `n` bytes. -/
def memchrNul (data : Memory) : (n env : Nat) → Option Nat
  | 0, _ => none
  | n + 1, env => if data env = 0 then some env else memchrNul data n (env + 1)

/-- The value of the entry at `s2` if the names match. -/
def envmatch (data : Memory) : (s1 : CString) → (s2 : Nat) → Option (Option Nat)
  | [], s2 =>
    if data s2 = 0 then none else if data s2 = EQUALS_SIGN then some (some (s2 + 1)) else some none
  | c :: s1, s2 =>
    if c = data s2 then if c = EQUALS_SIGN then some (some (s2 + 1)) else envmatch data s1 (s2 + 1)
    else some none

/-- Whether `strcmp` finds no difference. -/
def strcmpEq (data : Memory) : (s : CString) → (env : Nat) → Bool
  | [], env => data env = 0
  | c :: s, env => data env = c && strcmpEq data s (env + 1)

section Area

variable (size : Nat)

def fwEnvEntryEnd (data : Memory) (env : Nat) : Option Nat :=
  if size ≤ env then none else memchrNul data (size - env) env

def fwEnvDataEndLoop (data : Memory) : (rounds env : Nat) → Option Nat
  | 0, _ => none
  | rounds + 1, env =>
    if env < size ∧ data env ≠ 0 then
      match fwEnvEntryEnd size data env with
      | none => none
      | some nxt =>
        if size ≤ nxt + 1 then none
        else if data (nxt + 1) = 0 then some nxt
        else fwEnvDataEndLoop data rounds (nxt + 1)
    else if env < size ∧ env + 1 < size ∧ data (env + 1) = 0 then some env
    else none

def fwEnvDataEnd (data : Memory) : Option Nat := fwEnvDataEndLoop size data (size + 1) 0

inductive FwEnvSearch
  | unterminated
  | missing
  | found (env nxt oldval : Nat)

/-- The loop of `fw_getenv` and of `fw_env_write`. -/
def fwEnvSearchLoop (data : Memory) (name : CString) : (rounds env : Nat) → Option FwEnvSearch
  | 0, _ => none
  | rounds + 1, env =>
    if env < size ∧ data env ≠ 0 then
      match fwEnvEntryEnd size data env with
      | none => some .unterminated
      | some nxt =>
        match envmatch data name env with
        | none => none
        | some (some oldval) => some (.found env nxt oldval)
        | some none => fwEnvSearchLoop data name rounds (nxt + 1)
    else if size ≤ env then some .unterminated
    else some .missing

def fwEnvSearch (data : Memory) (name : CString) : Option FwEnvSearch :=
  fwEnvSearchLoop size data name (size + 1) 0

def fwGetenv (data : Memory) (name : CString) : Option (Option Nat) :=
  match fwEnvSearch size data name with
  | none => none
  | some (.found _ _ val) => some (some val)
  | some _ => some none

/-- The loop that moves the entries behind a removed one down, up to the two NULs at the end. -/
def slideLoop : (rounds : Nat) → (data : Memory) → (env nxt : Nat) → Option (Memory × Nat)
  | 0, _, _, _ => none
  | rounds + 1, data, env, nxt =>
    if size ≤ env ∨ size ≤ nxt + 1 then none
    else
      let data := data.write env [data nxt]
      if data env = 0 ∧ data (nxt + 1) = 0 then some (data, env)
      else slideLoop rounds data (env + 1) (nxt + 1)

/-- Remove the entry from `env` to the NUL at `nxt`. -/
def removeEntry (data : Memory) (env nxt : Nat) : Option Memory :=
  if size ≤ nxt + 1 then none
  else if data (nxt + 1) = 0 then
    if size ≤ env + 1 then none else some ((data.write env [0]).write (env + 1) [0])
  else
    match slideLoop size size data env (nxt + 1) with
    | none => none
    | some (data, env) => if size ≤ env + 1 then none else some (data.write (env + 1) [0])

/-- Append a definition; its length is an `int`. -/
def appendEntry (e : FwEnvironment) (name value : CString) : Option (Int × FwEnvironment) :=
  match fwEnvDataEnd size e.data with
  | none => some (-1, e)
  | some last =>
    let env := if 0 < last then last + 1 else last
    let len := int32 (int32 (name.length + 2) + (value.length + 1))
    if ((size - env : Nat) : Int) < len then some (-1, e)
    else
      let bytes := name ++ EQUALS_SIGN :: (value ++ [0, 0])
      if size < env + bytes.length then none
      else some (0, { e with data := e.data.write env bytes })

/-- `fw_env_write`; no value and an empty one are the same. -/
def fwEnvWrite (access : FwEnvAccess) (e : FwEnvironment) (name value : CString) :
    Option (Int × FwEnvironment) :=
  match fwEnvSearch size e.data name with
  | none => none
  | some .unterminated => some (-1, e)
  | some .missing =>
    if value = [] then some (0, e)
    else if access.preventCreate e.data name then some (-1, e)
    else appendEntry size { e with dirty := true } name value
  | some (.found env nxt oldval) =>
    if value = [] then
      if access.preventDelete e.data name then some (-1, e)
      else
        match removeEntry size e.data env nxt with
        | none => none
        | some data => some (0, ⟨data, true⟩)
    else if strcmpEq e.data value oldval then some (0, e)
    else if access.preventOverwr e.data name then some (-1, e)
    else if access.preventNondefOverwr e.data name ∧
        strcmpEq e.data ((access.fwGetdefenv name).getD []) oldval = false then some (-1, e)
    else
      match removeEntry size e.data env nxt with
      | none => none
      | some data => appendEntry size ⟨data, true⟩ name value

end Area

end UBoot
