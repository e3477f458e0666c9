import UBoot.HashTable

/-!
# The environment as text

`hexport_r` writes the entries of the hash table as a list of `name=value`
strings and `himport_r` reads such a list back.  The importer works on the
bytes from its current position to the end of its copy of the text, which ends with
an added NUL, and counts the bytes up to the size it was given.
-/

namespace UBoot

def EQUALS_SIGN : UInt8 := 61
def BACKSLASH : UInt8 := 92
def NUMBER_SIGN : UInt8 := 35
def FULL_STOP : UInt8 := 46
def SPACE : UInt8 := 32
def TAB : UInt8 := 9
def CARRIAGE_RETURN : UInt8 := 13
def LINE_FEED : UInt8 := 10

def H_NOCLEAR : Nat := 1 <<< 0
def H_HIDE_DOT : Nat := 1 <<< 3
def H_MATCH_KEY : Nat := 1 <<< 4
def H_MATCH_DATA : Nat := 1 <<< 5
def H_MATCH_IDENT : Nat := 1 <<< 6
def H_MATCH_SUBSTR : Nat := 1 <<< 7
def H_MATCH_REGEX : Nat := 1 <<< 8
def H_MATCH_METHOD : Nat := H_MATCH_IDENT ||| H_MATCH_SUBSTR ||| H_MATCH_REGEX

/-- The regular expressions of the `slre` library: which patterns compile and
which strings they match. -/
structure Slre where
  compiles : (pat : CString) → Bool
  isMatch : (pat str : CString) → Bool

structure EnvConfig where
  minEntries : Nat
  maxEntries : Nat
  append : Bool
  regex : Option Slre

/-- The default values of `CONFIG_ENV_MIN_ENTRIES`, `CONFIG_ENV_MAX_ENTRIES`,
`CONFIG_ENV_APPEND` and `CONFIG_REGEX`. -/
def EnvConfig.default : EnvConfig := ⟨64, 512, false, none⟩

def strcmp : CString → CString → Int
  | [], [] => 0
  | [], d :: _ => -d.toNat
  | c :: _, [] => c.toNat
  | c :: cs, d :: ds => if c = d then strcmp cs ds else c.toNat - d.toNat

section Export

variable (config : EnvConfig)

def matchString (flag : Nat) (str pat : CString) : Bool :=
  let method := flag &&& H_MATCH_METHOD
  if method = H_MATCH_IDENT then str = pat
  else if method = H_MATCH_SUBSTR then str.tails.any pat.isPrefixOf
  else if method = H_MATCH_REGEX then config.regex.any fun slre => slre.isMatch pat str
  else false

def EnvEntry.keyText (ep : EnvEntry) : CString := ep.key.getD []

def EnvEntry.dataText (ep : EnvEntry) : CString := ep.data.getD []

def matchEntry (config : EnvConfig) (ep : EnvEntry) (flag : Nat) : (argv : List CString) → Bool
  | [] => false
  | arg :: argv =>
    if config.regex.any fun slre => !slre.compiles arg then false
    else if flag &&& H_MATCH_KEY ≠ 0 ∧ matchString config flag ep.keyText arg then true
    else if flag &&& H_MATCH_DATA ≠ 0 ∧ matchString config flag ep.dataText arg then
      true
    else matchEntry config ep flag argv

/-- The entry of a node, if the first pass of `hexport_r` puts it on its list. -/
def listedEntry (flag : Nat) (argv : List CString) (node : EnvEntryNode) : Option EnvEntry :=
  let ep := node.entry
  if node.used ≤ 0 then none
  else if argv ≠ [] ∧ matchEntry config ep flag argv = false then none
  else if flag &&& H_HIDE_DOT ≠ 0 ∧ ep.keyText.headD 0 = FULL_STOP then none
  else some ep

/-- The list of the first pass of `hexport_r`. -/
def exportList (htab : HsearchData) (flag : Nat) (argv : List CString) : List EnvEntry :=
  (List.range' 1 htab.size).filterMap fun i =>
    listedEntry config flag argv (htab.node i)

/-- The length that the first pass of `hexport_r` adds for an entry. -/
def exportLength (sep : UInt8) (ep : EnvEntry) : Nat :=
  ep.keyText.length + (if sep = 0 then ep.dataText.length
      else (ep.dataText.map fun c => if c = sep ∨ c = BACKSLASH then 2 else 1).sum) + 2

/-- The value that the second pass of `hexport_r` writes. -/
def escape (sep : UInt8) (s : CString) : CString :=
  s.flatMap fun c => if c = sep ∨ c = BACKSLASH then [BACKSLASH, c] else [c]

/-- What the second pass of `hexport_r` writes for an entry. -/
def exportEntry (sep : UInt8) (ep : EnvEntry) : CString :=
  ep.keyText ++ EQUALS_SIGN :: escape sep ep.dataText ++ [sep]

/-- The text that the second pass of `hexport_r` writes for a list sorted by
keys. -/
def exportText (sep : UInt8) (list : List EnvEntry) : CString :=
  (list.insertionSort fun e1 e2 => strcmp e1.keyText e2.keyText ≤ 0).flatMap (exportEntry sep)

/-- The returned size and the bytes from the start of the buffer that are
written. -/
structure HexportResult where
  size : Nat
  bytes : List UInt8
  deriving DecidableEq, Repr

/-- `hexport_r`; `resp` says whether the caller provides a buffer. -/
def hexportR (hooks : HashHooks) (htab : HsearchData)
    (sep : UInt8) (flag : Nat) (resp : Bool) (size : Nat) (argv : List CString) :
    Except HashErrno HexportResult := do
  let list := exportList config htab flag argv
  let totlen := (list.map (exportLength sep)).sum
  if size ≠ 0 ∧ size < totlen + 1 then throw .ENOMEM
  let size := if size = 0 then totlen + 1 else size
  if !resp ∧ !hooks.malloc then throw .ENOMEM
  let text := exportText sep list ++ [0]
  return ⟨size, text ++ List.replicate (size - text.length) 0⟩

end Export

section Import

inductive ImportItem
  | comment
  | delete (name : CString)
  | insert (name value : CString)
  deriving DecidableEq, Repr

def isblank (c : UInt8) : Bool := c = SPACE || c = TAB

def isNameChar (sep c : UInt8) : Bool := c ≠ EQUALS_SIGN && c ≠ 0 && c ≠ sep

/-- The loop over a value: the value without escapes and the position where it
ends. -/
def parseValue (sep : UInt8) : List UInt8 → CString × List UInt8
  | [] => ([], [])
  | [c] => if c = 0 ∨ c = sep then ([], [c]) else ([c], [])
  | c :: d :: dp =>
    if c = 0 ∨ c = sep then ([], c :: d :: dp)
    else if c = BACKSLASH ∧ d ≠ 0 then
      let (value, dp) := parseValue sep dp
      (d :: value, dp)
    else
      let (value, dp) := parseValue sep (d :: dp)
      (c :: value, dp)

def parseItem (sep : UInt8) (dp : List UInt8) : ImportItem × List UInt8 :=
  let dp := dp.dropWhile isblank
  if dp.headD 0 = NUMBER_SIGN then
    (.comment, (dp.dropWhile fun c => c ≠ 0 && c ≠ sep).drop 1)
  else
    let name := dp.takeWhile (isNameChar sep)
    let dp := dp.dropWhile (isNameChar sep)
    let c := dp.headD 0
    let d := (dp.drop 1).headD 0
    if c = 0 ∨ d = 0 ∨ c = sep ∨ d = sep then
      (.delete name, if c = EQUALS_SIGN then dp.drop 2 else dp.drop 1)
    else
      let (value, dp) := parseValue sep (dp.drop 1)
      (.insert name value, dp.drop 1)

def dropVarFromSet (name : CString) (vars : List (Option CString)) : Bool × List (Option CString) :=
  if vars = [] then (true, vars)
  else (vars.any fun v => v = some name, vars.map fun v => if v = some name then none else v)

def importItem (hooks : HashHooks) (flag : Nat) (htab : HsearchData)
    (vars : List (Option CString)) :
    ImportItem → Option (List (Option CString) × HsearchData)
  | .comment => some (vars, htab)
  | .delete name => do
      let (listed, vars) := dropVarFromSet name vars
      if !listed then return (vars, htab)
      let (_, htab) ← hdeleteR hooks htab name flag
      return (vars, htab)
  | .insert name value => do
      let (listed, vars) := dropVarFromSet name vars
      if !listed then return (vars, htab)
      let (_, htab) ← hsearchR hooks htab name (some value) .enter flag
      return (vars, htab)

/-- The state of the importer after its loop: the error number, the variables
not yet considered and the table. -/
structure ImportLoopResult where
  errno : Option HashErrno
  vars : List (Option CString)
  htab : HsearchData
  deriving DecidableEq, Repr

/-- The loop of `himport_r`; `left` bytes remain up to the size given. -/
def importLoop (hooks : HashHooks) (sep : UInt8) (flag : Nat) :
    (fuel : Nat) → (dp : List UInt8) → (left : Nat) →
      (vars : List (Option CString)) → HsearchData → Option ImportLoopResult
  | 0, _, _, _, _ => none
  | fuel + 1, dp, left, vars, htab =>
    let (item, next) := parseItem sep dp
    let left := left - (dp.length - next.length)
    match item with
    | .insert [] _ => some ⟨some .EINVAL, vars, htab⟩
    | item => do
        let (vars, htab) ← importItem hooks flag htab vars item
        if 0 < left ∧ next.headD 0 ≠ 0 then
          importLoop hooks sep flag fuel next left vars htab
        else return ⟨none, vars, htab⟩

/-- The bytes that remain when carriage returns in front of line feeds are
removed, up to a NUL. -/
def removeCarriageReturns : List UInt8 → List UInt8
  | [] => []
  | c :: dp =>
    if c = 0 then []
    else if c = CARRIAGE_RETURN ∧ dp.head? = some LINE_FEED then
      removeCarriageReturns dp
    else c :: removeCarriageReturns dp

/-- What `himport_r` returns, with the table it leaves. -/
structure HimportResult where
  ret : Nat
  errno : Option HashErrno
  htab : Option HsearchData
  deriving DecidableEq, Repr

def deleteVars (hooks : HashHooks) (flag : Nat) :
    List (Option CString) → HsearchData → Option HsearchData
  | [], htab => some htab
  | none :: vars, htab => deleteVars hooks flag vars htab
  | some name :: vars, htab => do
      let (_, htab) ← hdeleteR hooks htab name flag
      deleteVars hooks flag vars htab

/-- The number of elements for which `himport_r` creates a table. -/
def importEntries (config : EnvConfig) (size : Nat) : Nat :=
  let nent := config.minEntries + size / 8
  if nent > config.maxEntries then config.maxEntries else nent

/-- `himport_r` on the bytes `env`; no table is `none`. -/
def himportR (config : EnvConfig) (hooks : HashHooks) (htab : Option HsearchData)
    (env : List UInt8) (sep : UInt8) (flag : Nat) (crlfIsLf : Bool)
    (vars : List CString) : Option HimportResult := do
  if !hooks.malloc then return ⟨0, some .ENOMEM, htab⟩
  let flag := if config.append then flag ||| H_NOCLEAR else flag
  let htab := if flag &&& H_NOCLEAR = 0 ∧ vars = [] then none else htab
  let htab ← match htab with
    | some htab => some htab
    | none => hcreateR (importEntries config env.length)
  if env = [] then return ⟨1, none, some htab⟩
  let data := env ++ [0]
  let kept := removeCarriageReturns env
  let ignored := (env.takeWhile fun c => c ≠ 0).length - kept.length
  let data := if crlfIsLf then kept ++ data.drop kept.length else data
  let size := if crlfIsLf then env.length - ignored else env.length
  let result ← importLoop hooks sep flag data.length data size (vars.map some) htab
  if result.errno ≠ none then return ⟨0, result.errno, some result.htab⟩
  if flag &&& H_NOCLEAR ≠ 0 then return ⟨1, none, some result.htab⟩
  let htab ← deleteVars hooks flag result.vars result.htab
  return ⟨1, none, some htab⟩

end Import

end UBoot
