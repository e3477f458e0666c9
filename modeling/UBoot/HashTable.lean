import UBoot.OpenAddressing

/-!
# The environment hash table

`lib/hashtable.c` keeps the environment in a hash table with open addressing
and double hashing.  This file translates its functions for creating a table,
searching, entering and deleting.  A string is its list of bytes without the
terminating NUL, a null pointer is `none`.  The hooks say what lies outside the
table: whether the `change_ok` function of the table and the callback of an
entry reject a change, which of the `strdup` calls of one search succeed, and
whether a buffer can be allocated.
Loops that end by a property of the table run on fuel, and `none` means that
the fuel was not enough.
-/

namespace UBoot

open OpenAddressing

abbrev CString := List UInt8

def USED_FREE : Int := 0
def USED_DELETED : Int := -1

/-- The fields of `struct env_entry` that the table itself uses. -/
structure EnvEntry where
  key : Option CString
  data : Option CString
  deriving DecidableEq, Repr, Inhabited

/-- `struct env_entry_node`. -/
structure EnvEntryNode where
  used : Int
  entry : EnvEntry
  deriving DecidableEq, Repr, Inhabited

/-- `struct hsearch_data`; slot 0 of the table is never used. -/
structure HsearchData where
  table : List EnvEntryNode
  size : Nat
  filled : Nat
  deriving DecidableEq, Repr

/-- `enum env_action`. -/
inductive EnvAction
  | find
  | enter
  deriving DecidableEq, Repr

/-- `enum env_op`. -/
inductive EnvOp
  | create
  | delete
  | overwrite
  deriving DecidableEq, Repr

/-- The values of `errno` that the functions of the table set. -/
inductive HashErrno
  | EINVAL
  | ENOMEM
  | EPERM
  | ESRCH
  deriving DecidableEq, Repr

structure HashHooks where
  changeOk : EnvEntry → (newval : Option CString) → EnvOp → (flag : Nat) → Bool
  callback : EnvEntry → (name : CString) → (value : Option CString) → EnvOp → (flag : Nat) → Bool
  strdup : Nat → Bool
  malloc : Bool

/-- No `change_ok` function, no callbacks and enough memory. -/
def HashHooks.permissive : HashHooks :=
  ⟨fun _ _ _ _ => false, fun _ _ _ _ _ => false, fun _ => true, true⟩

/-- The loop of `isprime`; it returns the last divisor tried. -/
def isprimeLoop (number : Nat) : (fuel div : Nat) → Option Nat
  | 0, _ => none
  | fuel + 1, div =>
    if div * div % 2 ^ 32 < number ∧ number % div ≠ 0 then
      isprimeLoop number fuel (div + 2)
    else some div

def isprime (number : Nat) : Option Bool := do
  let div ← isprimeLoop number (2 ^ 16) 3
  return number % div ≠ 0

/-- The loop of `hcreate_r` that looks for a prime table size. -/
def primeSearch : (fuel nel : Nat) → Option Nat
  | 0, _ => none
  | fuel + 1, nel => do
      if ← isprime nel then return nel
      primeSearch fuel (nel + 2)

/-- `hcreate_r` for a table that does not exist yet, can be allocated and has a size
that fits into an `unsigned int`. -/
def hcreateR (nel : Nat) : Option HsearchData := do
  let size ← primeSearch (2 ^ 31) (nel ||| 1)
  return ⟨List.replicate (size + 1) ⟨USED_FREE, ⟨none, none⟩⟩, size, 0⟩

/-- The value that `hsearch_r` computes from the characters of a key, which are
unsigned on ARM. -/
def hashValue (key : CString) : BitVec 32 :=
  key.foldr (fun c hval => hval <<< 4 + c.toBitVec.setWidth 32) (BitVec.ofNat 32 key.length)

def firstHash (size : Nat) (key : CString) : Nat :=
  let hval := (hashValue key).toNat % size
  if hval = 0 then 1 else hval

def secondHash (size hval : Nat) : Nat := 1 + hval % (size - 2)

namespace HsearchData

variable (htab : HsearchData)

def node (idx : Nat) : EnvEntryNode := htab.table.getD idx default

def setNode (idx : Nat) (node : EnvEntryNode) : HsearchData :=
  { htab with table := htab.table.set idx node }

/-- The comparison of `_compare_and_overwrite_entry`. -/
def matchesKey (key : CString) (hval idx : Nat) : Bool :=
  (htab.node idx).used = hval && (htab.node idx).entry.key = some key

end HsearchData

/-- Where the search of `hsearch_r` for a key ends, with the slots whose nodes
it has examined. -/
structure SearchExit where
  idx : Nat
  found : Bool
  firstDeleted : Nat
  visited : List Nat
  deriving DecidableEq, Repr

/-- The loop of `hsearch_r` over further slots. -/
def searchLoop (htab : HsearchData) (key : CString) (hval hval2 : Nat) :
    (fuel idx firstDeleted : Nat) → (visited : List Nat) → Option SearchExit
  | 0, _, _, _ => none
  | fuel + 1, idx, firstDeleted, visited =>
    let idx := nextIndex htab.size hval2 idx
    if idx = hval then some ⟨idx, false, firstDeleted, visited⟩
    else
      let visited := visited ++ [idx]
      let firstDeleted :=
        if (htab.node idx).used = USED_DELETED ∧ firstDeleted = 0 then idx
        else firstDeleted
      if htab.matchesKey key hval idx then
        some ⟨idx, true, firstDeleted, visited⟩
      else if (htab.node idx).used ≠ USED_FREE then
        searchLoop htab key hval hval2 fuel idx firstDeleted visited
      else some ⟨idx, false, firstDeleted, visited⟩

/-- The search part of `hsearch_r`. -/
def searchSlot (htab : HsearchData) (key : CString) : Option SearchExit :=
  let hval := firstHash htab.size key
  if (htab.node hval).used ≠ USED_FREE then
    let firstDeleted := if (htab.node hval).used = USED_DELETED then hval else 0
    if htab.matchesKey key hval hval then
      some ⟨hval, true, firstDeleted, [hval]⟩
    else
      searchLoop htab key hval (secondHash htab.size hval) htab.size hval
        firstDeleted [hval]
  else some ⟨hval, false, 0, [hval]⟩

/-- What `hsearch_r` returns: the index, the entry that `*retval` points to and
the error number it sets. -/
structure HsearchResult where
  ret : Nat
  retval : Option Nat
  errno : Option HashErrno
  deriving DecidableEq, Repr

def HsearchResult.fail (errno : HashErrno) : HsearchResult := ⟨0, none, some errno⟩

variable (hooks : HashHooks)

/-- `strdup` as call number `i` of a search; it returns NULL for NULL. -/
def strdup (i : Nat) (s : Option CString) : Option CString :=
  if hooks.strdup i then s else none

/-- `_compare_and_overwrite_entry` at a slot that holds the key. -/
def overwriteEntry (htab : HsearchData) (key : CString)
    (data : Option CString) (action : EnvAction) (flag idx : Nat) :
    HsearchResult × HsearchData :=
  let node := htab.node idx
  if action = .enter ∧ data ≠ none then
    if hooks.changeOk node.entry data .overwrite flag then (.fail .EPERM, htab)
    else if hooks.callback node.entry key data .overwrite flag then
      (.fail .EINVAL, htab)
    else
      let copy := strdup hooks 0 data
      let htab := htab.setNode idx { node with entry.data := copy }
      if copy = none then (.fail .ENOMEM, htab)
      else (⟨idx, some idx, none⟩, htab)
  else (⟨idx, some idx, none⟩, htab)

/-- `_hdelete`; the pointers that it frees and leaves in the node are not read
again. -/
def hdeleteSlot (htab : HsearchData) (idx : Nat) : HsearchData :=
  { htab.setNode idx ⟨USED_DELETED, ⟨none, none⟩⟩ with filled := htab.filled - 1 }

/-- The part of `hsearch_r` that creates a new entry in a slot. -/
def createEntry (htab : HsearchData) (key : CString)
    (data : Option CString) (flag hval idx : Nat) : HsearchResult × HsearchData :=
  let entry : EnvEntry := ⟨strdup hooks 0 (some key), strdup hooks 1 data⟩
  let htab := htab.setNode idx ⟨hval, entry⟩
  if entry.key = none ∨ entry.data = none then (.fail .ENOMEM, htab)
  else
    let htab := { htab with filled := htab.filled + 1 }
    if hooks.changeOk entry data .create flag then
      (.fail .EPERM, hdeleteSlot htab idx)
    else if hooks.callback entry key data .create flag then
      (.fail .EINVAL, hdeleteSlot htab idx)
    else (⟨1, some idx, none⟩, htab)

def hsearchR (htab : HsearchData) (key : CString)
    (data : Option CString) (action : EnvAction) (flag : Nat) :
    Option (HsearchResult × HsearchData) := do
  let exit ← searchSlot htab key
  if exit.found then
    return overwriteEntry hooks htab key data action flag exit.idx
  if action = .enter then
    if htab.filled = htab.size then return (.fail .ENOMEM, htab)
    let idx := if exit.firstDeleted ≠ 0 then exit.firstDeleted else exit.idx
    return createEntry hooks htab key data flag (firstHash htab.size key) idx
  return (.fail .ESRCH, htab)

/-- What `hdelete_r` returns. -/
inductive HdeleteResult
  | ok
  | notFound
  | notPermitted
  | invalid
  deriving DecidableEq, Repr

def hdeleteR (htab : HsearchData) (key : CString)
    (flag : Nat) : Option (HdeleteResult × HsearchData) := do
  let (result, htab) ← hsearchR hooks htab key none .find 0
  let idx := result.ret
  if idx = 0 then return (.notFound, htab)
  let entry := (htab.node idx).entry
  if hooks.changeOk entry none .delete flag then return (.notPermitted, htab)
  if hooks.callback entry key none .delete flag then return (.invalid, htab)
  return (.ok, hdeleteSlot htab idx)

end UBoot
