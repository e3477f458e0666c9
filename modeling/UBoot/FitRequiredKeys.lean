import UBoot.FdtTree
import UBoot.FitSignature

/-!
# Required keys

What the check of the keys that are required for images guarantees.  The required key is
not handed on, so that any key of the key blob will do.
-/

namespace UBoot

open Option

/-! ## Loops over subnodes -/

section Loop

variable {State : Type} {fdt : Memory} {rounds : Nat}

/-- From a value of the loop variable the loop comes to a node, over nodes that all have
a property. -/
inductive SubnodeVia (fdt : Memory) (rounds : Nat) (P : Int → Prop) : Int → Int → Prop
  | here {node : Int} (valid : 0 ≤ node) : SubnodeVia fdt rounds P node node
  | later {node next k : Int} (valid : 0 ≤ node) (passed : P node)
      (step : fdtNextSubnode fdt rounds node = some next)
      (rest : SubnodeVia fdt rounds P next k) : SubnodeVia fdt rounds P node k

/-- The loop over the subnodes of a node comes to a node, over nodes that all have a
property. -/
def IsSubnodeVia (fdt : Memory) (rounds : Nat) (P : Int → Prop) (parent k : Int) : Prop :=
  ∃ first, fdtFirstSubnode fdt rounds parent = some first ∧ SubnodeVia fdt rounds P first k

def IsSubnode (fdt : Memory) (rounds : Nat) (parent k : Int) : Prop :=
  IsSubnodeVia fdt rounds (fun _ => True) parent k

variable {P : Int → Prop} {node k : Int}

theorem SubnodeVia.mono {Q : Int → Prop} (weaker : ∀ node, P node → Q node)
    (via : SubnodeVia fdt rounds P node k) : SubnodeVia fdt rounds Q node k := by
  induction via with
  | here valid => exact .here valid
  | later valid passed step _ ih => exact .later valid (weaker _ passed) step ih

theorem SubnodeVia.valid (via : SubnodeVia fdt rounds P node k) : 0 ≤ k := by
  induction via with
  | here valid => exact valid
  | later _ _ _ _ ih => exact ih

theorem SubnodeVia.compare {Q : Int → Prop} {j : Int}
    (first : SubnodeVia fdt rounds P node j) (second : SubnodeVia fdt rounds Q node k) :
    j = k ∨ P k ∨ Q j := by
  induction first with
  | here =>
    cases second with
    | here => exact .inl rfl
    | later _ passed => exact .inr (.inr passed)
  | later _ passed step _ ih =>
    cases second with
    | here => exact .inr (.inl passed)
    | later _ _ step' rest =>
      cases step.symm.trans step'
      exact ih rest

theorem SubnodeVia.forall_of_step {next : Int} (passed : P node)
    (step : fdtNextSubnode fdt rounds node = some next)
    (all : ∀ k, SubnodeVia fdt rounds (fun _ => True) next k → P k) (k : Int)
    (via : SubnodeVia fdt rounds (fun _ => True) node k) : P k := by
  cases via with
  | here => exact passed
  | later _ _ step' rest =>
    cases step.symm.trans step'
    exact all k rest

theorem SubnodeVia.start (via : SubnodeVia fdt rounds P node k) : 0 ≤ node := by
  cases via with
  | here valid => exact valid
  | later valid => exact valid

section Rules

variable {body : Int → State → Option (ForInStep State)} {Inv : State → Prop}
  {P : Int → State → Prop} {Reached : Int → Prop} {steps : Nat} {node parent last : Int}
  {s t : State}

theorem forEachSubnode_step
    (run : forEachSubnode fdt rounds body (steps + 1) node s = some (last, t)) :
    (0 ≤ node ∧ last = node ∧ body node s = some (.done t)) ∨
      (0 ≤ node ∧ ∃ s' next, body node s = some (.yield s') ∧
        fdtNextSubnode fdt rounds node = some next ∧
          forEachSubnode fdt rounds body steps next s' = some (last, t)) ∨
      (node < 0 ∧ last = node ∧ t = s) := by
  rw [forEachSubnode] at run
  split at run
  case isTrue valid =>
    split at run
    case h_1 => cases run
    case h_2 t' left =>
      obtain ⟨rfl, rfl⟩ : node = last ∧ t' = t := by simpa using run
      exact .inl ⟨valid, rfl, left⟩
    case h_3 s' more =>
      split at run
      case h_1 => cases run
      case h_2 next step => exact .inr (.inl ⟨valid, s', next, more, step, run⟩)
  case isFalse ended =>
    obtain ⟨rfl, rfl⟩ : node = last ∧ s = t := by simpa using run
    exact .inr (.inr ⟨by omega, rfl, rfl⟩)

/-- The rule for such a loop: with an invariant that its body keeps and a property of each
passed node that later rounds keep it was left at some node, or it has passed all nodes. -/
theorem forEachSubnode_cases
    (keeps : ∀ node s s', Reached node → Inv s → body node s = some (.yield s') →
      Inv s' ∧ P node s' ∧ ∀ k, P k s → P k s')
    (inv : Inv s) (reached : ∀ k, SubnodeVia fdt rounds (fun _ => True) node k → Reached k)
    (run : forEachSubnode fdt rounds body steps node s = some (last, t)) :
    ∃ u, (∀ k, P k s → P k u) ∧ Inv u ∧
      ((SubnodeVia fdt rounds (P · u) node last ∧ body last u = some (.done t)) ∨
        (last < 0 ∧ u = t ∧ ∀ k, SubnodeVia fdt rounds (fun _ => True) node k → P k u)) := by
  induction steps generalizing node s with
  | zero => cases run
  | succ steps ih =>
    rcases forEachSubnode_step run with ⟨valid, rfl, left⟩ |
      ⟨valid, s', next, more, step, rest⟩ | ⟨ended, rfl, rfl⟩
    · exact ⟨s, fun _ before => before, inv, .inl ⟨.here valid, left⟩⟩
    · obtain ⟨inv', passed, stays⟩ := keeps node s s' (reached node (.here valid)) inv more
      have reachedLater : ∀ k, SubnodeVia fdt rounds (fun _ => True) next k → Reached k :=
        fun k via => reached k (.later valid trivial step via)
      obtain ⟨u, later, invLater, ends⟩ := ih inv' reachedLater rest
      refine ⟨u, fun k before => later k (stays k before), invLater, ?_⟩
      rcases ends with ⟨via, exit⟩ | ⟨ended, same, all⟩
      · exact .inl ⟨.later valid (later node passed) step via, exit⟩
      · exact .inr ⟨ended, same, SubnodeVia.forall_of_step (later node passed) step all⟩
    · exact ⟨t, fun _ before => before, inv,
        .inr ⟨ended, rfl, fun k via => absurd via.start (by omega)⟩⟩

theorem eachSubnode_cases (Inv : State → Prop) (P : Int → State → Prop)
    (keeps : ∀ node s s', IsSubnode fdt rounds parent node → Inv s →
      body node s = some (.yield s') → Inv s' ∧ P node s' ∧ ∀ k, P k s → P k s')
    (inv : Inv s) (run : eachSubnode fdt rounds parent body s = some (last, t)) :
    (∃ u, IsSubnodeVia fdt rounds (P · u) parent last ∧ 0 ≤ last ∧ Inv u ∧
        body last u = some (.done t)) ∨
      (last < 0 ∧ Inv t ∧ ∀ k, IsSubnode fdt rounds parent k → P k t) := by
  unfold eachSubnode at run
  split at run
  case h_1 => cases run
  case h_2 first found =>
    obtain ⟨u, -, inv, ⟨via, exit⟩ | ⟨ended, rfl, all⟩⟩ :=
      forEachSubnode_cases keeps inv (fun k via => ⟨first, found, via⟩) run
    · exact .inl ⟨u, ⟨first, found, via⟩, via.valid, inv, exit⟩
    refine .inr ⟨ended, inv, fun k subnode => ?_⟩
    obtain ⟨first', found', via⟩ := subnode
    cases found.symm.trans found'
    exact all k via

end Rules

end Loop

/-! ## Images -/

variable {noffset : Int}

section Image

variable (config : FitConfig) (ok : KeyOracle) (rounds : Nat) (fit keyBlob : Memory)

/-- The name of a node has no `@`. -/
def PlainName (noffset : Int) : Prop :=
  ∃ name, fdtGetName fit noffset = some name ∧ (0x40 : UInt8) ∉ name

def SignatureNamed (noffset : Int) : Prop :=
  ∃ name, fdtGetName fit noffset = some name ∧ name.take FIT_SIG_NODENAME.length = FIT_SIG_NODENAME

/-- A signature node of an image that the function may come to, where nodes with an `@`
end the search. -/
structure TriedSignature (imageNoffset noffset : Int) : Prop where
  subnode : IsSubnodeVia fit rounds (PlainName fit) imageNoffset noffset
  plain : PlainName fit noffset
  named : SignatureNamed fit noffset

def AnyKeyAccepts (imageNoffset : Int) (data : List UInt8) : Prop :=
  ∃ noffset, TriedSignature rounds fit imageNoffset noffset ∧
    fitImageCheckSig config ok rounds fit keyBlob noffset data (-1) = some (.ok ())

def RequiredImageKey (keynode : Int) : Prop :=
  ∃ keyNode, fdtSubnodeOffset keyBlob rounds 0 FIT_SIG_NODENAME = some keyNode ∧ 0 ≤ keyNode ∧
    IsSubnode keyBlob rounds keyNode keynode ∧
      propIs keyBlob rounds keynode (chars "required") (chars "image") = some true

def ImageSignedBy (imageNoffset : Int) (data : List UInt8) (keynode : Int) : Prop :=
  ∃ noffset value, IsSubnode fit rounds imageNoffset noffset ∧ SignatureNamed fit noffset ∧
    fitImageHashGetValue rounds fit noffset = some (.ok value) ∧
      ok keynode noffset [data] value = true

variable {config ok rounds fit keyBlob}

theorem plainName_iff {name : List UInt8} (found : fdtGetName fit noffset = some name) :
    PlainName fit noffset ↔ (0x40 : UInt8) ∉ name := by simp [PlainName, found]

theorem signatureNamed_iff {name : List UInt8} (found : fdtGetName fit noffset = some name) :
    SignatureNamed fit noffset ↔ name.take FIT_SIG_NODENAME.length = FIT_SIG_NODENAME := by
  simp [SignatureNamed, found]

def NotAccepted (config : FitConfig) (ok : KeyOracle) (rounds : Nat) (fit keyBlob : Memory)
    (data : List UInt8) (noffset : Int) : Prop :=
  PlainName fit noffset ∧ ¬(SignatureNamed fit noffset ∧
    fitImageCheckSig config ok rounds fit keyBlob noffset data (-1) = some (.ok ()))

variable {data : List UInt8}

theorem imageSigBody_cases {s : SigSearch} {r : ForInStep SigSearch}
    (step : imageSigBody config ok rounds fit keyBlob data noffset s = some r) :
    (r = .done .badName ∧ ¬PlainName fit noffset) ∨
      (r = .done .verified ∧ PlainName fit noffset ∧ SignatureNamed fit noffset ∧
        fitImageCheckSig config ok rounds fit keyBlob noffset data (-1) = some (.ok ())) ∨
      (r = .yield s ∧ NotAccepted config ok rounds fit keyBlob data noffset) := by
  unfold imageSigBody at step
  split at step
  case h_1 => cases step
  case h_2 name found =>
    have plainIff := plainName_iff found
    have namedIff := signatureNamed_iff found
    split at step
    case isTrue special =>
      exact .inl ⟨(some.inj step).symm, fun plain => plainIff.mp plain special⟩
    case isFalse plain =>
      replace plain := plainIff.mpr plain
      split at step
      case isTrue named =>
        split at step
        case h_1 => cases step
        case h_2 message refused =>
          refine .inr (.inr ⟨(some.inj step).symm, plain, ?_⟩)
          simp [refused]
        case h_3 accepted =>
          exact .inr (.inl ⟨(some.inj step).symm, plain, namedIff.mpr named, accepted⟩)
      case isFalse other =>
        exact .inr (.inr ⟨(some.inj step).symm, plain,
          fun accepted => other (namedIff.mp accepted.1)⟩)

/-- An image is verified exactly if some key of the key blob accepts one of the signatures
that the function comes to. -/
theorem fitImageVerifySig_eq_zero {imageNoffset keyOffset ret : Int}
    (run : fitImageVerifySig config ok rounds fit keyBlob imageNoffset data keyOffset = some ret) :
    ret = 0 ↔ AnyKeyAccepts config ok rounds fit keyBlob imageNoffset data := by
  unfold fitImageVerifySig at run
  cases loop : eachSubnode fit rounds imageNoffset (imageSigBody config ok rounds fit keyBlob data)
      .unverified with
  | none => simp [loop] at run
  | some result =>
    obtain ⟨last, t⟩ := result
    simp only [loop] at run
    rcases eachSubnode_cases (fun s => s = .unverified)
      (fun noffset _ => NotAccepted config ok rounds fit keyBlob data noffset)
      (fun noffset s s' _ unverified step => by
        obtain ⟨same, -⟩ | ⟨same, -⟩ | ⟨same, passed⟩ := imageSigBody_cases step <;> cases same
        exact ⟨unverified, passed, fun _ before => before⟩) rfl loop with
      ⟨s, ⟨first, found, via⟩, valid, -, exit⟩ | ⟨-, rfl, all⟩
    · rcases imageSigBody_cases exit with ⟨same, special⟩ | ⟨same, plain, named, accepted⟩ |
        ⟨same, -⟩ <;> cases same
      · obtain rfl : -1 = ret := by simpa using run
        refine ⟨fun zero => by omega, ?_⟩
        -- A signature behind the node with the `@` is not tried, and none before it is accepted.
        rintro ⟨noffset, ⟨⟨first', found', tried⟩, plain, named⟩, accepted⟩
        cases found.symm.trans found'
        rcases via.compare tried with rfl | ⟨-, refused⟩ | passed
        · exact absurd plain special
        · exact absurd ⟨named, accepted⟩ refused
        · exact absurd passed special
      · simp only at run
        rw [if_neg (by unfold FDT_ERR_TRUNCATED FDT_ERR_BADSTRUCTURE; omega), if_pos trivial] at run
        refine ⟨fun _ => ⟨last, ⟨⟨first, found, ?_⟩, plain, named⟩, accepted⟩,
          fun _ => (some.inj run).symm⟩
        exact via.mono fun _ passed => passed.1
    · have failed : ret ≠ 0 := by
        simp only at run
        split at run <;> simp [EPERM] at run <;> omega
      refine ⟨fun zero => absurd zero failed, ?_⟩
      rintro ⟨noffset, ⟨⟨first, found, tried⟩, -, named⟩, accepted⟩
      have passed := all noffset ⟨first, found, tried.mono fun _ _ => trivial⟩
      exact absurd ⟨named, accepted⟩ passed.2

theorem requiredSigBody_cases {imageNoffset : Int} {s : KeySearch} {r : ForInStep KeySearch}
    (step : requiredSigBody config ok rounds fit keyBlob imageNoffset data noffset s = some r) :
    ((r = .yield s ∨ r = .yield (s.map (· + 1))) ∧
        (propIs keyBlob rounds noffset (chars "required") (chars "image") = some true →
          AnyKeyAccepts config ok rounds fit keyBlob imageNoffset data)) ∨
      ((∃ ret, ret ≠ 0 ∧ r = .done (.error ret)) ∧
        propIs keyBlob rounds noffset (chars "required") (chars "image") = some true ∧
          ¬AnyKeyAccepts config ok rounds fit keyBlob imageNoffset data) := by
  unfold requiredSigBody at step
  split at step
  case h_1 => cases step
  case h_2 other =>
    refine .inl ⟨.inl (some.inj step).symm, fun required => ?_⟩
    cases other.symm.trans required
  case h_3 required =>
    split at step
    case h_1 => cases step
    case h_2 ret verify =>
      have zero := fitImageVerifySig_eq_zero verify
      split at step
      case isTrue nonzero =>
        exact .inr ⟨⟨ret, nonzero, (some.inj step).symm⟩, required,
          fun accepted => nonzero (zero.2 accepted)⟩
      case isFalse success =>
        exact .inl ⟨.inr (some.inj step).symm, fun _ => zero.1 (not_not.1 success)⟩

/-- The images pass exactly if no key is required, or some key accepts a signature. -/
theorem fitImageVerifyRequiredSigs_eq_zero {imageNoffset ret : Int} {noSigs : Bool}
    (run : fitImageVerifyRequiredSigs config ok rounds fit keyBlob imageNoffset data =
      some (ret, noSigs)) : ret = 0 ↔ ((∃ keynode, RequiredImageKey rounds keyBlob keynode) →
      AnyKeyAccepts config ok rounds fit keyBlob imageNoffset data) := by
  unfold fitImageVerifyRequiredSigs at run
  split at run
  case h_1 => cases run
  case h_2 keyNode found =>
    split at run
    case isTrue negative =>
      obtain ⟨rfl, -⟩ : 0 = ret ∧ true = noSigs := by simpa using run
      refine ⟨fun _ ⟨keynode, required⟩ => ?_, fun _ => rfl⟩
      obtain ⟨keyNode', found', valid, -⟩ := required
      cases found.symm.trans found'
      omega
    case isFalse valid =>
      cases loop : eachSubnode keyBlob rounds keyNode
          (requiredSigBody config ok rounds fit keyBlob imageNoffset data) (.ok 0) with
      | none => simp [loop] at run
      | some result =>
        obtain ⟨last, t⟩ := result
        rw [loop] at run
        rcases eachSubnode_cases (fun s : KeySearch => ∃ count, s = .ok count)
          (fun keynode _ => propIs keyBlob rounds keynode (chars "required") (chars "image") =
            some true → AnyKeyAccepts config ok rounds fit keyBlob imageNoffset data)
          (fun keynode s s' _ counted step => by
            obtain ⟨same | same, passed⟩ | ⟨⟨ret, -, same⟩, -⟩ := requiredSigBody_cases step <;>
              cases same
            · exact ⟨counted, passed, fun _ before => before⟩
            · obtain ⟨count, rfl⟩ := counted
              exact ⟨⟨count + 1, rfl⟩, passed, fun _ before => before⟩) ⟨0, rfl⟩ loop with
          ⟨s, ⟨first, start, via⟩, -, -, exit⟩ | ⟨-, ⟨count, rfl⟩, all⟩
        · obtain ⟨same | same, -⟩ | ⟨⟨code, nonzero, same⟩, required, refused⟩ :=
            requiredSigBody_cases exit <;> cases same
          obtain ⟨rfl, -⟩ : code = ret ∧ true = noSigs := by simpa using run
          refine ⟨fun zero => absurd zero nonzero, fun accepted => absurd (accepted ?_) refused⟩
          exact ⟨last, keyNode, found, by omega,
            ⟨first, start, via.mono fun _ _ => trivial⟩, required⟩
        · obtain ⟨rfl, -⟩ : 0 = ret ∧ decide (count = 0) = noSigs := by simpa using run
          refine ⟨fun _ ⟨keynode, keyNode', found', _, subnode, required⟩ => ?_, fun _ => rfl⟩
          cases found.symm.trans found'
          exact all keynode subnode required

end Image

/-! ### The keys that are tried -/

/-- A signature of an image that the function may come to, with a known algorithm and a value,
and a key that it is tried with. -/
structure TriedWith (config : FitConfig) (rounds : Nat) (fit keyBlob : Memory)
    (imageNoffset noffset key : Int) : Prop where
  tried : TriedSignature rounds fit imageNoffset noffset
  complete : ∃ keyname value, fitImageSetupVerify config rounds fit noffset = some (.ok keyname) ∧
    fitImageHashGetValue rounds fit noffset = some (.ok value) ∧
    rsaVerifyHash rounds keyBlob (-1) (hintName fit keyname) (fun k => k = key) = some true

section Keys

variable {config : FitConfig} {ok : KeyOracle} {rounds : Nat} {fit keyBlob : Memory}
  {data : List UInt8}

theorem fitImageCheckSig_ok {keynode : Int} :
    fitImageCheckSig config ok rounds fit keyBlob noffset data keynode = some (.ok ()) ↔
      ∃ keyname value, fitImageSetupVerify config rounds fit noffset = some (.ok keyname) ∧
        fitImageHashGetValue rounds fit noffset = some (.ok value) ∧
        rsaVerifyHash rounds keyBlob keynode (hintName fit keyname)
          (fun k => ok k noffset [data] value) = some true := by
  unfold fitImageCheckSig
  rcases fitImageSetupVerify config rounds fit noffset with _ | _ | keyname
  · simp
  · simp
  rcases fitImageHashGetValue rounds fit noffset with _ | _ | value
  · simp
  · simp
  simp only [verifyRegions, map_eq_some_iff, some.injEq, Except.ok.injEq]
  constructor
  · rintro ⟨accepted, verify, result⟩
    cases accepted with
    | true => exact ⟨keyname, value, rfl, rfl, verify⟩
    | false => simp at result
  · rintro ⟨_, _, rfl, rfl, verify⟩
    exact ⟨true, verify, rfl⟩

/-- If some key is accepted, it alone would be. -/
theorem eachKeyLoop_only {node offset depth : Int} {accepts : Int → Bool} {steps : Nat}
    (run : eachKeyLoop keyBlob rounds node accepts steps offset depth = some true) :
    ∃ key, accepts key = true ∧
      eachKeyLoop keyBlob rounds node (fun k => k = key) steps offset depth = some true := by
  induction steps generalizing offset depth with
  | zero => cases run
  | succ steps ih =>
    rw [eachKeyLoop] at run
    split_ifs at run with goesOn accepted
    · exact ⟨offset, accepted.2.2, by
        rw [eachKeyLoop, if_pos goesOn, if_pos (by simp [accepted.1, accepted.2.1])]⟩
    · split at run
      · cases run
      next next found =>
        obtain ⟨key, accepts, later⟩ := ih run
        refine ⟨key, accepts, ?_⟩
        rw [eachKeyLoop, if_pos goesOn, found]
        split_ifs
        · rfl
        · exact later
    · cases run

theorem rsaVerifyHash_only {name : List UInt8} {accepts : Int → Bool}
    (run : rsaVerifyHash rounds keyBlob (-1) name accepts = some true) :
    ∃ key, accepts key = true ∧
      rsaVerifyHash rounds keyBlob (-1) name (fun k => k = key) = some true := by
  unfold rsaVerifyHash at *
  cases sig : fdtSubnodeOffset keyBlob rounds 0 FIT_SIG_NODENAME with
  | none => simp [sig] at run
  | some sigNode =>
    simp only [sig, ne_eq, not_true_eq_false, if_false] at run ⊢
    by_cases negative : sigNode < 0
    · simp [negative] at run
    simp only [if_neg negative] at run ⊢
    cases hint : fdtSubnodeOffset keyBlob rounds sigNode name with
    | none => simp [hint] at run
    | some node =>
      simp only [hint] at run ⊢
      split_ifs at run with hinted
      · exact ⟨node, hinted.2, by rw [if_pos (by simpa using hinted.1)]⟩
      cases next : fdtNextNode keyBlob rounds sigNode 0 with
      | none => simp [next] at run
      | some first =>
        simp only [next] at run ⊢
        obtain ⟨key, accepts, later⟩ := eachKeyLoop_only run
        refine ⟨key, accepts, ?_⟩
        split_ifs
        · rfl
        · exact later

end Keys

/-- If a signature is tried with the required key only, a result of zero means that every
required key accepts a signature.  If one is tried with another key, the call in which that
key alone accepts it, if it returns, has the result zero, and the required key accepts none. -/
theorem fitImageVerifyRequiredSigs_enforced (config : FitConfig) (rounds : Nat)
    (fit keyBlob : Memory) (imageNoffset : Int) (data : List UInt8) :
    ((∀ required noffset key, RequiredImageKey rounds keyBlob required →
        TriedWith config rounds fit keyBlob imageNoffset noffset key → key = required) →
      ∀ ok noSigs, fitImageVerifyRequiredSigs config ok rounds fit keyBlob imageNoffset data =
          some (0, noSigs) →
        ∀ required, RequiredImageKey rounds keyBlob required →
          ImageSignedBy ok rounds fit imageNoffset data required) ∧
    ∀ required noffset key, RequiredImageKey rounds keyBlob required →
      TriedWith config rounds fit keyBlob imageNoffset noffset key → key ≠ required →
      ∀ ret noSigs, fitImageVerifyRequiredSigs config (fun k _ _ _ => k = key) rounds fit keyBlob
          imageNoffset data = some (ret, noSigs) →
        ret = 0 ∧
          ¬ImageSignedBy (fun k _ _ _ => k = key) rounds fit imageNoffset data required := by
  constructor
  · intro only ok noSigs run required isRequired
    obtain ⟨noffset, tried, check⟩ :=
      (fitImageVerifyRequiredSigs_eq_zero run).1 rfl ⟨required, isRequired⟩
    obtain ⟨keyname, value, setup, hasValue, verify⟩ := fitImageCheckSig_ok.1 check
    obtain ⟨key, accepts, alone⟩ := rsaVerifyHash_only verify
    obtain rfl := only required noffset key isRequired
      ⟨tried, keyname, value, setup, hasValue, alone⟩
    obtain ⟨⟨first, found, via⟩, -, named⟩ := tried
    exact ⟨noffset, value, ⟨first, found, via.mono fun _ _ => trivial⟩, named, hasValue, accepts⟩
  · rintro required noffset key isRequired ⟨tried, keyname, value, setup, hasValue, alone⟩ other
      ret noSigs run
    refine ⟨(fitImageVerifyRequiredSigs_eq_zero run).2 fun _ => ⟨noffset, tried, ?_⟩, ?_⟩
    · exact fitImageCheckSig_ok.2 ⟨keyname, value, setup, hasValue, alone⟩
    · rintro ⟨_, _, -, -, -, accepted⟩
      exact other (of_decide_eq_true accepted).symm

/-! ### A key that is not asked for -/

def sampleStrings : List UInt8 :=
  chars "required" ++ [0] ++ chars "algo" ++ [0] ++ chars "value" ++ [0]

def sampleBlob (tokens : List FdtToken) : Memory :=
  fdtBlob (tokens.map FdtToken.bytes).flatten sampleStrings

def twoKeys : List FdtToken :=
  [.beginNode [], .beginNode (chars "signature"), .beginNode (chars "key-a"),
    .prop 0 (chars "image" ++ [0]), .endNode, .beginNode (chars "key-b"), .endNode, .endNode,
    .endNode, .end]

def signedImage : List FdtToken :=
  [.beginNode [], .beginNode (chars "signature-1"), .prop 9 (chars "sha1,rsa2048" ++ [0]),
    .prop 14 [1], .endNode, .endNode, .end]

def sampleConfig : FitConfig where
  fitSignatureMaxSize := 1000
  checksumAlgos := [chars "sha1"]
  cryptoAlgos := [chars "rsa2048"]

/-- An image passes with a signature by the key that is not required. -/
theorem fitImageVerifyRequiredSigs_other_key :
    fitImageVerifyRequiredSigs sampleConfig (fun keynode _ _ _ => keynode = 60) 20
        (sampleBlob signedImage) (sampleBlob twoKeys) 0 [7] = some (0, false) ∧
      RequiredImageKey 20 (sampleBlob twoKeys) 24 ∧
      ¬ImageSignedBy (fun keynode _ _ _ => keynode = 60) 20 (sampleBlob signedImage) 0 [7] 24 := by
  refine ⟨by decide, ⟨8, by decide, by decide, ?_, by decide⟩, ?_⟩
  · exact ⟨24, by decide, .here (by decide)⟩
  · rintro ⟨noffset, value, -, -, -, accepted⟩
    simp at accepted

end UBoot
