import UBoot.FdtRegion
import UBoot.FdtTree
import UBoot.Spans

/-!
# What the regions to hash cover

For a blob that holds a tree, the regions of `fdt_find_regions` are sorted, disjoint and
not empty, and they cover what has to be hashed: the begin and end tags of the nodes that
are listed or whose parent is, the properties of the listed nodes that are not excluded,
and the end tag.
-/

namespace UBoot

open List Option FdtToken Spans FdtToken

/-! ## Tags with their place in the tree -/

def childPath (path name : List UInt8) : List UInt8 :=
  if path = [0x2f] then path ++ name else path ++ 0x2f :: name

inductive TagKind
  | beginNode
  | endNode
  | prop (name : List UInt8)
  | nop
  | «end»
  deriving DecidableEq

/-- A tag, where it lies, the path of the node it belongs to and the path of its parent. -/
structure PlacedTag where
  offset : Nat
  size : Nat
  kind : TagKind
  path : List UInt8
  parent : Option (List UInt8)

def propName (fdt : Memory) (nameoff : Nat) : List UInt8 :=
  (fdtGetString fdt (int32 nameoff)).getD []

/-- The tags of the contents of a node with the given path that start at an offset. -/
def FdtItems.placed (fdt : Memory) (path : List UInt8) (parent : Option (List UInt8)) :
    Nat → FdtItems → List PlacedTag
  | _, nil => []
  | offset, prop nameoff value rest =>
    let size := (FdtToken.prop nameoff value).size
    { offset := offset, size := size, kind := .prop (propName fdt nameoff), path := path
      parent := parent } :: rest.placed fdt path parent (offset + size)
  | offset, nop rest =>
    { offset := offset, size := FdtToken.nop.size, kind := .nop, path := path
      parent := parent } :: rest.placed fdt path parent (offset + FdtToken.nop.size)
  | offset, node name children rest =>
    let inner := offset + (beginNode name).size
    let last := inner + tokensSize children.tokens
    { offset := offset, size := (beginNode name).size, kind := .beginNode
      path := childPath path name, parent := some path } ::
      (children.placed fdt (childPath path name) (some path) inner ++
        { offset := last, size := endNode.size, kind := .endNode
          path := childPath path name, parent := some path } ::
          rest.placed fdt path parent (last + endNode.size))

def placedTags (fdt : Memory) (root : FdtItems) : List PlacedTag :=
  let inner := (beginNode []).size
  let last := inner + tokensSize root.tokens
  { offset := 0, size := inner, kind := .beginNode, path := [0x2f], parent := none } ::
    (root.placed fdt [0x2f] none inner ++
      [{ offset := last, size := endNode.size, kind := .endNode, path := [0x2f]
         parent := none },
       { offset := last + endNode.size, size := end.size, kind := .end
         path := [], parent := none }])

def Listed (inc : List (List UInt8)) (path : Option (List UInt8)) : Prop := ∃ p ∈ path, p ∈ inc

instance (inc : List (List UInt8)) (path : Option (List UInt8)) : Decidable (Listed inc path) :=
  match path with
  | none => .isFalse (by rintro ⟨p, wrong, -⟩; cases wrong)
  | some p => decidable_of_iff (p ∈ inc) ⟨fun listed => ⟨p, rfl, listed⟩, by
      rintro ⟨p', same, listed⟩
      obtain rfl : p = p' := by simpa using same
      exact listed⟩

def PlacedTag.selected (query : RegionQuery) (tag : PlacedTag) : Bool :=
  match tag.kind with
  | .beginNode | .endNode => tag.path ∈ query.inc ∨ Listed query.inc tag.parent
  | .prop name => tag.path ∈ query.inc ∧ name ∉ query.excProp
  | .nop => tag.path ∈ query.inc
  | .end => true

/-- A tag as an item of the row of tags; an end tag is hashed if the tag before it is. -/
def PlacedTag.item (query : RegionQuery) (tag : PlacedTag) : SpanItem where
  start := tag.offset
  stop := tag.offset + tag.size
  selected := tag.selected query
  trailing := tag.kind = .endNode

/-! ## Paths -/

variable {name path : List UInt8}

theorem pushPath_eq (head : path.head? = some 0x2f) : pushPath path name = childPath path name := by
  obtain ⟨tail, rfl⟩ : ∃ tail, path = 0x2f :: tail := by
    cases path with
    | nil => cases head
    | cons c tail => exact ⟨tail, by rw [some.inj head]⟩
  unfold pushPath childPath
  cases tail with
  | nil => simp
  | cons c tail => simp

theorem pushPath_nil (name : List UInt8) : pushPath [] name = childPath [0x2f] name := by
  simp [pushPath, childPath]

theorem head_childPath (name : List UInt8) (head : path.head? = some 0x2f) :
    (childPath path name).head? = some 0x2f := by
  unfold childPath
  split
  · rw [head?_append, head]
    rfl
  · rw [head?_append, head]
    rfl

theorem popPath_append (path : List UInt8) (plain : (0x2f : UInt8) ∉ name) :
    popPath (path ++ 0x2f :: name) = path := by
  unfold popPath
  rw [reverse_append, reverse_cons, append_assoc, dropWhile_append_of_pos]
  · simp
  intro c member
  have inName : c ∈ name := mem_reverse.1 member
  simp only [ne_eq, decide_not, Bool.not_eq_true', decide_eq_false_iff_not]
  rintro rfl
  exact plain inName

/-- The buffer holds the path of the current node; it is empty at the root once a child
has been left. -/
def PathIn (buffer path : List UInt8) : Prop := buffer = path ∨ (path = [0x2f] ∧ buffer = [])

theorem PathIn.push {buffer : List UInt8} (name : List UInt8)
    (head : path.head? = some 0x2f) (held : PathIn buffer path) :
    pushPath buffer name = childPath path name := by
  rcases held with rfl | ⟨rfl, rfl⟩
  · exact pushPath_eq head
  · exact pushPath_nil name

theorem PathIn.pop {buffer : List UInt8} (plain : (0x2f : UInt8) ∉ name)
    (head : path.head? = some 0x2f) (held : PathIn buffer (childPath path name)) :
    PathIn (popPath buffer) path := by
  rcases held with rfl | ⟨root, rfl⟩
  · unfold childPath
    split
    case isTrue root =>
      subst root
      exact .inr ⟨rfl, popPath_append [] plain⟩
    case isFalse => exact .inl (popPath_append path plain)
  -- Only a nameless child of the root has the path of the root.
  refine .inr ⟨?_, rfl⟩
  unfold childPath at root
  split at root
  case isTrue same => exact same
  case isFalse =>
    have lengths := congrArg List.length root
    rw [length_append, length_cons, length_singleton] at lengths
    obtain rfl : path = [] := eq_nil_of_length_eq_zero (by omega)
    cases head

/-! ## Regions and spans -/

def spanRegion (base : Int) (span : Span) : FdtRegion where
  offset := base + span.start
  size := span.stop - span.start

structure RegionsOf (base : Int) (l : RegionList) (s : Spans) : Prop where
  regions : l.regions = s.closed.map (spanRegion base)
  count : l.count = s.closed.length
  start : l.start = s.start.elim (-1) Nat.cast

variable {l : RegionList}

section Regions

variable {maxRegions : Nat} {base : Int} {s : Spans}

theorem RegionsOf.openRegion (regionsOf : RegionsOf base l s) (room : l.count ≤ maxRegions)
    (offset : Nat) :
    RegionsOf base (UBoot.openRegion maxRegions base l offset) (s.openAt offset) := by
  have last : l.regions.getLast? = s.closed.getLast?.map (spanRegion base) := by
    rw [regionsOf.regions, getLast?_map]
  unfold UBoot.openRegion openAt
  rw [last]
  cases found : s.closed.getLast? with
  | none => exact ⟨regionsOf.regions, regionsOf.count, rfl⟩
  | some span =>
    simp only [map_some]
    have touches : (offset : Int) = (spanRegion base span).offset + (spanRegion base span).size -
        base ↔ span.stop = offset := by
      unfold spanRegion
      constructor <;> intro same <;> simp only at * <;> omega
    by_cases ends : span.stop = offset
    · rw [if_pos ⟨room, touches.2 ends⟩, if_pos ends]
      refine ⟨?_, ?_, ?_⟩
      · rw [regionsOf.regions, map_dropLast]
      · rw [length_dropLast, regionsOf.count]
      · unfold spanRegion
        simp
    · rw [if_neg fun both => ends (touches.1 both.2), if_neg ends]
      exact ⟨regionsOf.regions, regionsOf.count, rfl⟩

theorem RegionsOf.closeRegion (regionsOf : RegionsOf base l s) (room : l.count < maxRegions)
    {start : Nat} (opened : s.start = some start) (stop : Nat) :
    RegionsOf base (UBoot.closeRegion maxRegions base l stop) (s.closeAt start stop) := by
  have same : l.start = start := by
    rw [regionsOf.start, opened]
    rfl
  unfold UBoot.closeRegion closeAt
  rw [if_pos room]
  refine ⟨?_, ?_, rfl⟩
  · rw [map_append, regionsOf.regions, same]
    rfl
  · rw [length_append, regionsOf.count]
    rfl

/-- A tag does to the regions what the item does to the spans, if there is room for them. -/
theorem RegionsOf.updateRegions (regionsOf : RegionsOf base l s) (item : SpanItem) {stopAt : Int}
    (stops : item.selected = false →
      stopAt = if item.trailing then (item.stop : Int) else item.start)
    (room : (UBoot.updateRegions maxRegions base l item.start item.selected stopAt).count ≤
      maxRegions) (before : l.count ≤ maxRegions) :
    RegionsOf base (UBoot.updateRegions maxRegions base l item.start item.selected stopAt)
      (s.step item) := by
  have start := regionsOf.start
  unfold UBoot.updateRegions at *
  unfold step
  cases opened : s.start with
  | none =>
    rw [opened] at start
    change l.start = -1 at start
    cases chosen : item.selected with
    | true =>
      rw [if_pos start]
      exact regionsOf.openRegion before item.start
    | false =>
      rw [if_neg (not_not.2 start)]
      exact regionsOf
  | some first =>
    rw [opened] at start
    change l.start = first at start
    have isOpen : l.start ≠ -1 := by omega
    cases chosen : item.selected with
    | true =>
      rw [if_neg isOpen]
      exact regionsOf
    | false =>
      rw [chosen] at room
      simp only [Bool.false_eq_true, if_false] at room ⊢
      rw [if_pos isOpen] at room ⊢
      have less : l.count < maxRegions := by
        unfold UBoot.closeRegion at room
        simp only at room
        omega
      have stop : stopAt = ((if item.trailing then item.stop else item.start : Nat) : Int) := by
        rw [stops chosen]
        split <;> rfl
      rw [stop]
      exact regionsOf.closeRegion less opened _

theorem count_updateRegions {offset stopAt : Int} {chosen : Bool} (full : maxRegions < l.count) :
    maxRegions < (updateRegions maxRegions base l offset chosen stopAt).count := by
  unfold updateRegions
  split
  · split
    · unfold openRegion
      split
      · rw [if_neg (by omega)]
        exact full
      · exact full
    · exact full
  · split
    · unfold closeRegion
      simp only
      omega
    · exact full

end Regions

theorem updateRegions_selected {maxRegions : Nat} {base offset stopAt stopAt' : Int}
    {chosen : Bool} (same : chosen = false → stopAt = stopAt') :
    updateRegions maxRegions base l offset chosen stopAt =
      updateRegions maxRegions base l offset chosen stopAt' := by
  cases chosen with
  | true => rfl
  | false => rw [same rfl]

def PlacedTag.stopAt (tag : PlacedTag) : Int :=
  if tag.kind = .endNode then ((tag.offset + tag.size : Nat) : Int) else tag.offset

def tagRegions (fdt : Memory) (query : RegionQuery) (l : RegionList) (tags : List PlacedTag) :
    RegionList :=
  tags.foldl (fun l tag =>
    updateRegions query.maxRegions (regionBase fdt) l tag.offset (tag.selected query) tag.stopAt) l

theorem count_tagRegions {fdt : Memory} {query : RegionQuery}
    {tags : List PlacedTag} (full : query.maxRegions < l.count) :
    query.maxRegions < (tagRegions fdt query l tags).count := by
  induction tags generalizing l with
  | nil => exact full
  | cons tag _ ih => exact ih (count_updateRegions full)

theorem RegionsOf.tagRegions {fdt : Memory} {query : RegionQuery} {s : Spans}
    (tags : List PlacedTag) (regionsOf : RegionsOf (regionBase fdt) l s)
    (room : (UBoot.tagRegions fdt query l tags).count ≤ query.maxRegions) :
    RegionsOf (regionBase fdt) (UBoot.tagRegions fdt query l tags)
      ((tags.map (PlacedTag.item query)).foldl step s) := by
  induction tags generalizing l s with
  | nil => exact regionsOf
  | cons tag tags ih =>
    have roomBefore : ∀ l' : RegionList, (UBoot.tagRegions fdt query l' tags).count ≤
        query.maxRegions → l'.count ≤ query.maxRegions := by
      intro l' enough
      by_contra full
      exact absurd (count_tagRegions (by omega)) (not_lt.2 enough)
    have next := roomBefore _ room
    refine ih (regionsOf.updateRegions (tag.item query) ?_ next ?_) room
    · intro _
      unfold PlacedTag.stopAt PlacedTag.item
      simp
    · by_contra full
      exact absurd (count_updateRegions (by omega)) (not_lt.2 next)

/-! ## The loop over the tags -/

variable {fdt : Memory} {query : RegionQuery} {p : TreePosition} {result : RegionList × Int}

section Loop

variable {rounds : Nat} {offset : Int}

variable (run : findRegionsLoop fdt query rounds p l offset = some (.ok result))

include run

theorem findRegionsLoop_next (more : (fdtNextTag fdt offset).1 ≠ .end) :
    ∃ rounds' choice, chooseTag fdt query p offset = .ok choice ∧
      findRegionsLoop fdt query rounds' choice.position
        (updateRegions query.maxRegions (regionBase fdt) l offset choice.include choice.stopAt)
        (fdtNextTag fdt offset).2 = some (.ok result) := by
  cases rounds with
  | zero => cases run
  | succ rounds =>
    rw [findRegionsLoop] at run
    split at run
    case h_1 => simp at run
    case h_2 choice chosen =>
      rw [if_neg more] at run
      exact ⟨rounds, choice, chosen, run⟩

theorem findRegionsLoop_end (last : (fdtNextTag fdt offset).1 = .end) :
    result = (updateRegions query.maxRegions (regionBase fdt) l offset true
      (fdtNextTag fdt offset).2, (fdtNextTag fdt offset).2) := by
  cases rounds with
  | zero => cases run
  | succ rounds =>
    rw [findRegionsLoop] at run
    have chosen : chooseTag fdt query p offset =
        .ok { position := p, «include» := true, stopAt := (fdtNextTag fdt offset).2 } := by
      unfold chooseTag
      simp [last]
    rw [chosen] at run
    simp only at run
    rw [if_pos last] at run
    exact (Except.ok.inj (some.inj run)).symm

end Loop

def wantOf (inc : List (List UInt8)) (path : List UInt8) (parent : Option (List UInt8)) : Nat :=
  if path ∈ inc then 2 else if Listed inc parent then 1 else 0

variable {parent : Option (List UInt8)} {inc : List (List UInt8)}

theorem two_le_wantOf : 2 ≤ wantOf inc path parent ↔ path ∈ inc := by
  unfold wantOf
  split
  · simp [*]
  · split <;> simp [*]

theorem wantOf_ne_zero : wantOf inc path parent ≠ 0 ↔ path ∈ inc ∨ Listed inc parent := by
  unfold wantOf
  split
  · simp [*]
  · split <;> simp [*]

theorem wantOf_child (inc : List (List UInt8)) (child path : List UInt8)
    (parent : Option (List UInt8)) :
    (if child ∈ inc then 2 else wantOf inc path parent - 1) = wantOf inc child (some path) := by
  have listed : Listed inc (some path) ↔ path ∈ inc := by simp [Listed]
  unfold wantOf
  by_cases inPath : path ∈ inc
  · simp [inPath, listed]
  simp only [inPath, if_false, listed]
  split
  · rfl
  · split <;> rfl

structure PositionAt (query : RegionQuery) (path : List UInt8) (parent : Option (List UInt8))
    (stack : List Nat) (p : TreePosition) : Prop where
  want : p.want = wantOf query.inc path parent
  path : PathIn p.path path
  stack : p.stack = stack
  expectEnd : p.expectEnd = false

variable {path : List UInt8} {stack : List Nat}

section Choose

variable {offset nextoffset : Int} {choice : TagChoice}

section Position

variable (position : PositionAt query path parent stack p)
  (chosen : chooseTag fdt query p offset = .ok choice)

include position chosen

theorem chooseTag_prop {name : List UInt8} (tag : fdtNextTag fdt offset = (.prop, nextoffset))
    (found : fdtGetString fdt (propNameoff fdt offset) = some name) :
    choice.position = p ∧ choice.include = decide (path ∈ query.inc ∧ name ∉ query.excProp) ∧
      choice.stopAt = offset := by
  unfold chooseTag at chosen
  simp only [tag, position.expectEnd, Bool.false_eq_true, false_and, if_false] at chosen
  unfold propTag at chosen
  split at chosen
  · simp at chosen
  rw [found] at chosen
  simp only [Except.ok.injEq] at chosen
  subst chosen
  refine ⟨rfl, ?_, rfl⟩
  rw [position.want]
  simp only [two_le_wantOf]

theorem chooseTag_nop (tag : fdtNextTag fdt offset = (.nop, nextoffset)) :
    choice.position = p ∧ choice.include = decide (path ∈ query.inc) ∧ choice.stopAt = offset := by
  unfold chooseTag at chosen
  simp only [tag, position.expectEnd, Bool.false_eq_true, false_and, if_false] at chosen
  unfold nopTag at chosen
  simp only [Except.ok.injEq] at chosen
  subst chosen
  refine ⟨rfl, ?_, rfl⟩
  rw [position.want]
  simp only [two_le_wantOf]

theorem chooseTag_beginNode {name : List UInt8} (head : path.head? = some 0x2f)
    (tag : fdtNextTag fdt offset = (.beginNode, nextoffset))
    (found : fdtGetName fdt offset = some name) :
    PositionAt query (childPath path name) (some path) (p.want :: stack) choice.position ∧
      choice.position.path = childPath path name ∧
      choice.include = decide (childPath path name ∈ query.inc ∨ Listed query.inc (some path)) ∧
      (choice.include = false → choice.stopAt = offset) := by
  have pushed := position.path.push name head
  unfold chooseTag at chosen
  simp only [tag, position.expectEnd, Bool.false_eq_true, false_and, if_false] at chosen
  unfold beginNodeTag at chosen
  split at chosen
  · simp at chosen
  rw [found] at chosen
  simp only at chosen
  split at chosen
  · simp at chosen
  split at chosen
  · simp at chosen
  simp only [Except.ok.injEq] at chosen
  subst chosen
  simp only [pushed, position.want, wantOf_child, position.stack]
  refine ⟨⟨rfl, .inl rfl, rfl, position.expectEnd⟩, trivial, ?_, fun skipped => ?_⟩
  · simp only [wantOf_ne_zero]
  rw [decide_eq_false_iff_not, not_not] at skipped
  rw [if_pos]
  have child := wantOf_child query.inc (childPath path name) path parent
  rw [skipped] at child
  split at child
  · cases child
  · have small : wantOf query.inc path parent = 0 ∨ wantOf query.inc path parent = 1 := by omega
    tauto

end Position

theorem chooseTag_endNode {want : Nat} (position : PositionAt query path parent (want :: stack) p)
    (tag : fdtNextTag fdt offset = (.endNode, nextoffset))
    (chosen : chooseTag fdt query p offset = .ok choice) :
    choice.position =
        { stack := stack, want := want, path := popPath p.path, expectEnd := stack.isEmpty } ∧
      choice.include = decide (path ∈ query.inc ∨ Listed query.inc parent) ∧
      choice.stopAt = nextoffset := by
  unfold chooseTag at chosen
  simp only [tag, position.expectEnd, Bool.false_eq_true, false_and, if_false] at chosen
  unfold endNodeTag at chosen
  rw [position.stack] at chosen
  simp only [Except.ok.injEq] at chosen
  subst chosen
  refine ⟨?_, ?_, rfl⟩
  · rw [position.expectEnd, Bool.false_or]
  · rw [position.want]
    simp only [wantOf_ne_zero]

end Choose

section Items

variable {rounds offset : Nat}

theorem tagRegions_append (first second : List PlacedTag) :
    tagRegions fdt query l (first ++ second) =
      tagRegions fdt query (tagRegions fdt query l first) second :=
  foldl_append

theorem tagRegions_cons (tag : PlacedTag) (tags : List PlacedTag) :
    tagRegions fdt query l (tag :: tags) =
      tagRegions fdt query (updateRegions query.maxRegions (regionBase fdt) l tag.offset
        (tag.selected query) tag.stopAt) tags := rfl

/-- The loop comes through the contents of a node and has then followed the tags there. -/
theorem findRegionsLoop_items (layout : FdtLayout fdt) (items : FdtItems)
    (position : PositionAt query path parent stack p) (inNode : stack ≠ [])
    (head : path.head? = some 0x2f) (tokensAt : TokensAt fdt offset items.tokens)
    (inside : offset + tokensSize items.tokens ≤ fdtSizeDtStruct fdt) (aligned : 4 ∣ offset)
    (plain : items.PlainNames) (named : items.Named fdt)
    (run : findRegionsLoop fdt query rounds p l offset = some (.ok result)) :
    ∃ rounds' p', PositionAt query path parent stack p' ∧ findRegionsLoop fdt query rounds' p'
        (tagRegions fdt query l (items.placed fdt path parent offset))
        ((offset + tokensSize items.tokens : Nat) : Int) = some (.ok result) := by
  induction items generalizing path parent stack p l rounds offset with
  | nil => exact ⟨rounds, p, position, run⟩
  | prop nameoff value rest ih =>
    simp only [FdtItems.tokens, TokensAt, tokensSize_cons] at tokensAt inside
    have tag := layout.nextTag tokensAt.1 (by omega) aligned
    obtain ⟨name, found⟩ := isSome_iff_exists.1 named.1
    have lookup : fdtGetString fdt (propNameoff fdt offset) = some name := by
      unfold propNameoff
      rw [tokensAt.1.2.2.1, found]
    obtain ⟨rounds', choice, chosen, later⟩ :=
      findRegionsLoop_next run (by rw [tag]; simp [FdtToken.tag])
    obtain ⟨same, included, stop⟩ := chooseTag_prop position chosen tag lookup
    rw [tag, same, included, stop] at later
    obtain ⟨rounds'', p', position', rest'⟩ := ih position inNode head tokensAt.2
      (by omega) (Nat.dvd_add aligned (dvd_tagAlign _)) plain named.2 later
    refine ⟨rounds'', p', position', ?_⟩
    rw [FdtItems.tokens, tokensSize_cons, ← Nat.add_assoc, FdtItems.placed, tagRegions_cons]
    unfold propName PlacedTag.selected PlacedTag.stopAt
    rw [found]
    exact rest'
  | nop rest ih =>
    simp only [FdtItems.tokens, TokensAt, tokensSize_cons] at tokensAt inside
    have tag := layout.nextTag (show TokenAt fdt offset .nop from tokensAt.1) (by omega) aligned
    obtain ⟨rounds', choice, chosen, later⟩ :=
      findRegionsLoop_next run (by rw [tag]; simp [FdtToken.tag])
    obtain ⟨same, included, stop⟩ := chooseTag_nop position chosen tag
    rw [tag, same, included, stop] at later
    obtain ⟨rounds'', p', position', rest'⟩ := ih position inNode head tokensAt.2
      (by omega) (Nat.dvd_add aligned (dvd_tagAlign _)) plain named later
    refine ⟨rounds'', p', position', ?_⟩
    rw [FdtItems.tokens, tokensSize_cons, ← Nat.add_assoc, FdtItems.placed, tagRegions_cons]
    exact rest'
  | node name children rest inner outer =>
    simp only [FdtItems.tokens, TokensAt, TokensAt.append, tokensSize_cons, tokensSize_append]
      at tokensAt inside
    obtain ⟨beginAt, childrenAt, endAt, restAt⟩ := tokensAt
    obtain ⟨plainName, plainChildren, plainRest⟩ := plain
    have alignedInner : 4 ∣ offset + (beginNode name).size := Nat.dvd_add aligned (dvd_tagAlign _)
    have alignedEnd : 4 ∣ offset + (beginNode name).size + tokensSize children.tokens :=
      Nat.dvd_add alignedInner (dvd_tokensSize _)
    -- The begin tag.
    have beginTag := layout.nextTag beginAt (by omega) aligned
    have found := layout.getName beginAt (by omega) aligned
    obtain ⟨rounds₁, choice, chosen, afterBegin⟩ :=
      findRegionsLoop_next run (by rw [beginTag]; simp [tag])
    obtain ⟨inChild, -, included, stop⟩ := chooseTag_beginNode position chosen head beginTag found
    rw [beginTag, included, updateRegions_selected (fun skipped => stop (included ▸ skipped))]
      at afterBegin
    -- The contents of the node.
    obtain ⟨rounds₂, p₂, position₂, afterChildren⟩ := inner inChild (by simp)
      (head_childPath name head) childrenAt (by omega) alignedInner plainChildren named.1
      afterBegin
    -- The end tag, which leads back to the node that was left at the begin tag.
    have endTag := layout.nextTag (show TokenAt fdt _ .endNode from endAt) (by omega) alignedEnd
    obtain ⟨rounds₃, choice₃, chosen₃, afterEnd⟩ :=
      findRegionsLoop_next afterChildren (by rw [endTag]; simp [tag])
    obtain ⟨back, included₃, stop₃⟩ := chooseTag_endNode position₂ endTag chosen₃
    have outside : PositionAt query path parent stack choice₃.position := by
      rw [back]
      refine ⟨position.want, position₂.path.pop plainName head, rfl, ?_⟩
      exact isEmpty_eq_false_iff.2 inNode
    rw [endTag, included₃, stop₃] at afterEnd
    -- What comes behind the node.
    obtain ⟨rounds₄, p₄, position₄, behind⟩ := outer outside inNode head restAt (by omega)
      (Nat.dvd_add alignedEnd (dvd_tagAlign _)) plainRest named.2 afterEnd
    refine ⟨rounds₄, p₄, position₄, ?_⟩
    rw [FdtItems.placed, tagRegions_cons, tagRegions_append, tagRegions_cons]
    simp only [FdtItems.tokens, tokensSize_cons, tokensSize_append, ← Nat.add_assoc]
    exact behind

end Items

/-! ## The row of tags -/

theorem row_placed (fdt : Memory) (query : RegionQuery) (path : List UInt8)
    (parent : Option (List UInt8)) (offset : Nat) (items : FdtItems) :
    Spans.Row offset ((items.placed fdt path parent offset).map (PlacedTag.item query))
      (offset + tokensSize items.tokens) := by
  induction items generalizing path parent offset with
  | nil => rfl
  | prop nameoff value rest ih =>
    have large := (prop nameoff value).four_le_size
    refine ⟨rfl, ?_, ?_⟩
    · simp only [PlacedTag.item]
      omega
    · rw [FdtItems.tokens, tokensSize_cons, ← Nat.add_assoc]
      exact ih path parent _
  | nop rest ih =>
    have large := nop.four_le_size
    refine ⟨rfl, ?_, ?_⟩
    · simp only [PlacedTag.item]
      omega
    · rw [FdtItems.tokens, tokensSize_cons, ← Nat.add_assoc]
      exact ih path parent _
  | node name children rest inner outer =>
    have large := (beginNode name).four_le_size
    have largeEnd := endNode.four_le_size
    rw [FdtItems.placed]
    simp only [FdtItems.tokens, map_cons, map_append, tokensSize_cons, tokensSize_append]
    refine ⟨rfl, ?_, Spans.Row.append.2 ⟨_, inner _ _ _, rfl, ?_, ?_⟩⟩
    · simp only [PlacedTag.item]
      omega
    · simp only [PlacedTag.item]
      omega
    · simp only [← Nat.add_assoc]
      exact outer path parent _

theorem row_placedTags (fdt : Memory) (query : RegionQuery) (root : FdtItems) :
    Spans.Row 0 ((placedTags fdt root).map (PlacedTag.item query))
      (tokensSize (fdtTokens root)) := by
  have large := (beginNode []).four_le_size
  have largeEnd := endNode.four_le_size
  have largeLast := end.four_le_size
  unfold placedTags fdtTokens
  simp only [map_cons, map_append, map_nil, tokensSize_cons, tokensSize_append, tokensSize_nil]
  refine ⟨rfl, ?_, Spans.Row.append.2 ⟨_, ?_, rfl, ?_, rfl, ?_, ?_⟩⟩
  · simp only [PlacedTag.item]
    omega
  · simp only [PlacedTag.item, Nat.zero_add]
    exact row_placed fdt query _ _ _ root
  · simp only [PlacedTag.item]
    omega
  · simp only [PlacedTag.item]
    omega
  · simp only [PlacedTag.item, Spans.Row]
    omega

/-! ## The whole search -/

variable {root : FdtItems}

theorem chooseTag_root {nextoffset : Int} {choice : TagChoice}
    (tag : fdtNextTag fdt 0 = (.beginNode, nextoffset)) (found : fdtGetName fdt 0 = some [])
    (chosen : chooseTag fdt query { stack := [], want := 0, path := [], expectEnd := false } 0 =
      .ok choice) :
    PositionAt query [0x2f] none [0] choice.position ∧
      choice.include = decide ([0x2f] ∈ query.inc ∨ Listed query.inc none) ∧
      (choice.include = false → choice.stopAt = 0) := by
  have noParent : ¬Listed query.inc none := by
    rintro ⟨path, wrong, -⟩
    cases wrong
  unfold chooseTag at chosen
  simp only [tag, Bool.false_eq_true, false_and, if_false] at chosen
  unfold beginNodeTag at chosen
  split at chosen
  · simp at chosen
  rw [found] at chosen
  simp only at chosen
  split at chosen
  · simp at chosen
  split at chosen
  · simp at chosen
  simp only [Except.ok.injEq] at chosen
  subst chosen
  have path : pushPath [] [] = [0x2f] := rfl
  simp only [path]
  refine ⟨⟨?_, .inl rfl, rfl, rfl⟩, ?_, fun skipped => ?_⟩
  · unfold wantOf
    simp [noParent]
  · by_cases listed : [0x2f] ∈ query.inc <;> simp [listed, noParent]
  rw [decide_eq_false_iff_not, not_not] at skipped
  rw [if_pos]
  refine .inr ⟨fun listed => ?_, trivial⟩
  simp [listed] at skipped

theorem findRegionsLoop_tree (holds : FdtHolds fdt root) {rounds : Nat} {result : RegionList × Int}
    (run : findRegionsLoop fdt query rounds
      { stack := [], want := 0, path := [], expectEnd := false }
      { count := 0, regions := [], start := -1 } 0 = some (.ok result)) :
    result = (tagRegions fdt query { count := 0, regions := [], start := -1 }
      (placedTags fdt root), (fdtSizeDtStruct fdt : Int)) := by
  have layout := holds.toFdtLayout
  have tokensAt := holds.tokens
  have size := holds.size
  unfold fdtTokens at tokensAt size
  simp only [TokensAt, TokensAt.append, tokensSize_cons, tokensSize_append, tokensSize_nil,
    Nat.zero_add] at tokensAt size
  obtain ⟨beginAt, itemsAt, endAt, lastAt, -⟩ := tokensAt
  have alignedInner : 4 ∣ (beginNode []).size := dvd_tagAlign _
  have alignedEnd : 4 ∣ (beginNode []).size + tokensSize root.tokens :=
    Nat.dvd_add alignedInner (dvd_tokensSize _)
  -- The begin tag of the root.
  have beginTag := layout.nextTag beginAt (by omega) (Nat.dvd_zero 4)
  have found := layout.getName beginAt (by omega) (Nat.dvd_zero 4)
  rw [Nat.cast_zero] at beginTag found
  obtain ⟨rounds₁, choice, chosen, afterBegin⟩ :=
    findRegionsLoop_next run (by rw [beginTag]; simp [tag])
  obtain ⟨inRoot, included, stop⟩ := chooseTag_root beginTag found chosen
  rw [beginTag, included, updateRegions_selected (fun skipped => stop (included ▸ skipped))]
    at afterBegin
  -- The contents of the root.
  obtain ⟨rounds₂, p₂, position₂, afterItems⟩ := findRegionsLoop_items layout root inRoot (by simp)
    rfl itemsAt (by omega) alignedInner holds.plainNames holds.named afterBegin
  -- The end tag of the root.
  have endTag := layout.nextTag (show TokenAt fdt _ .endNode from endAt) (by omega) alignedEnd
  obtain ⟨rounds₃, choice₃, chosen₃, afterEnd⟩ :=
    findRegionsLoop_next afterItems (by rw [endTag]; simp [tag])
  obtain ⟨back, included₃, stop₃⟩ := chooseTag_endNode position₂ endTag chosen₃
  rw [endTag, included₃, stop₃] at afterEnd
  -- The end tag of the block.
  have lastTag := layout.nextTag (show TokenAt fdt _ .end from lastAt) (by omega)
    (Nat.dvd_add alignedEnd (dvd_tagAlign _))
  have last := findRegionsLoop_end afterEnd (by rw [lastTag]; rfl)
  rw [last, lastTag]
  unfold placedTags
  rw [tagRegions_cons, tagRegions_append, tagRegions_cons, tagRegions_cons]
  simp only [← size, ← Nat.add_assoc]
  rfl

def treeSpans (fdt : Memory) (query : RegionQuery) (root : FdtItems) : Spans :=
  ((placedTags fdt root).map (PlacedTag.item query)).foldl step
    { closed := [], start := none }

theorem treeSpans_spec : (treeSpans fdt query root).Sorted (tokensSize (fdtTokens root)) ∧
      (treeSpans fdt query root).positions (tokensSize (fdtTokens root)) =
        coveredPositions false ((placedTags fdt root).map (PlacedTag.item query)) := by
  have empty : Spans.Sorted { closed := [], start := none } 0 :=
    ⟨List.Pairwise.nil, by simp, by simp, by simp⟩
  exact run_spec empty (row_placedTags fdt query root)

theorem treeSpans_open : ∃ start, (treeSpans fdt query root).start = some start := by
  apply isSome_iff_exists.1
  unfold treeSpans placedTags
  rw [map_cons, map_append, foldl_cons, foldl_append]
  exact start_step

/-- The regions that a search finds, if there is room for them: those of the spans that are
closed, and the last one, with the strings if they are asked for. -/
theorem fdtFindRegions_eq (holds : FdtHolds fdt root) {rounds start : Nat} {l : RegionList}
    (opened : (treeSpans fdt query root).start = some start)
    (run : fdtFindRegions fdt query rounds = some (.ok l)) (room : l.count ≤ query.maxRegions) :
    l.regions = (treeSpans fdt query root).closed.map (spanRegion (regionBase fdt)) ++
      [{ offset := regionBase fdt + start
         size := fdtSizeDtStruct fdt - start +
           if query.addStringTab then (fdtSizeDtStrings fdt : Int) else 0 }] := by
  unfold fdtFindRegions at run
  split at run
  case h_1 => cases run
  case h_2 => simp at run
  case h_3 found nextoffset loop =>
    obtain ⟨rfl, rfl⟩ := Prod.mk.inj (findRegionsLoop_tree holds loop)
    rw [some.injEq] at run
    unfold lastRegion at run
    split at run
    case isTrue => simp at run
    case isFalse =>
      cases run
      simp only at room ⊢
      rw [if_pos (by omega)]
      have empty : RegionsOf (regionBase fdt) { count := 0, regions := [], start := -1 }
          { closed := [], start := none } := ⟨rfl, rfl, rfl⟩
      have regionsOf : RegionsOf (regionBase fdt) _ (treeSpans fdt query root) :=
        empty.tagRegions (placedTags fdt root) (by omega)
      have same := regionsOf.start
      rw [opened] at same
      rw [regionsOf.regions, same]
      rfl

def TagCovered (fdt : Memory) (regions : List FdtRegion) (tag : PlacedTag) : Prop :=
  ∀ x, tag.offset ≤ x → x < tag.offset + tag.size →
    ∃ region ∈ regions, region.offset ≤ regionBase fdt + x ∧
      regionBase fdt + x < region.offset + region.size

structure RegionsCover (fdt : Memory) (root : FdtItems) (query : RegionQuery)
    (regions : List FdtRegion) : Prop where
  sorted : regions.Pairwise fun x y => x.offset + x.size ≤ y.offset
  nonempty : ∀ region ∈ regions, 0 < region.size
  inside : ∀ region ∈ regions, regionBase fdt ≤ region.offset ∧ region.offset + region.size ≤
    regionBase fdt + fdtSizeDtStruct fdt +
      if query.addStringTab then (fdtSizeDtStrings fdt : Int) else 0
  beginNode : ∀ tag ∈ placedTags fdt root, tag.kind = .beginNode →
    (TagCovered fdt regions tag ↔ tag.path ∈ query.inc ∨ Listed query.inc tag.parent)
  prop : ∀ tag ∈ placedTags fdt root, ∀ name, tag.kind = .prop name →
    (TagCovered fdt regions tag ↔ tag.path ∈ query.inc ∧ name ∉ query.excProp)
  nop : ∀ tag ∈ placedTags fdt root, tag.kind = .nop →
    (TagCovered fdt regions tag ↔ tag.path ∈ query.inc)
  endNode : ∀ tag ∈ placedTags fdt root, tag.kind = .endNode →
    tag.path ∈ query.inc ∨ Listed query.inc tag.parent → TagCovered fdt regions tag
  «end» : ∀ tag ∈ placedTags fdt root, tag.kind = .end → TagCovered fdt regions tag

section Cover

variable {regions : List FdtRegion}

/-- A byte of the structure block lies in a region exactly if it is a position of the spans. -/
theorem mem_regions_iff {s : Spans} {start n x : Nat} {extra : Int} (opened : s.start = some start)
    (noLess : 0 ≤ extra) (inBlock : x < n) :
    (∃ region ∈ s.closed.map (spanRegion (regionBase fdt)) ++
        [{ offset := regionBase fdt + start, size := n - start + extra }],
      region.offset ≤ regionBase fdt + x ∧ regionBase fdt + x < region.offset + region.size) ↔
      x ∈ s.positions n := by
  unfold positions
  rw [opened, mem_append, mem_flatMap, mem_range'_1]
  constructor
  · rintro ⟨region, member, low, high⟩
    rcases mem_append.1 member with earlier | last
    · obtain ⟨span, inClosed, rfl⟩ := mem_map.1 earlier
      refine .inl ⟨span, inClosed, Span.mem_positions.2 ?_⟩
      unfold spanRegion at low high
      simp only at low high
      omega
    · obtain rfl := mem_singleton.1 last
      simp only at low high
      exact .inr (by omega)
  rintro (⟨span, inClosed, inSpan⟩ | ⟨low, -⟩)
  · rw [Span.mem_positions] at inSpan
    refine ⟨spanRegion (regionBase fdt) span, mem_append_left _ (mem_map_of_mem inClosed), ?_, ?_⟩
    · unfold spanRegion
      simp only
      omega
    · unfold spanRegion
      simp only
      omega
  · refine ⟨_, mem_append_right _ (mem_singleton_self _), ?_, ?_⟩
    · simp only
      omega
    · simp only
      omega

theorem tagCovered_of_mem (covers : ∀ x < tokensSize (fdtTokens root),
      (∃ region ∈ regions, region.offset ≤ regionBase fdt + x ∧
        regionBase fdt + x < region.offset + region.size) ↔
        x ∈ coveredPositions false ((placedTags fdt root).map (PlacedTag.item query)))
    {tag : PlacedTag} (member : tag ∈ placedTags fdt root) :
    (tag.selected query = true → TagCovered fdt regions tag) ∧
      (tag.kind ≠ .endNode → TagCovered fdt regions tag → tag.selected query = true) := by
  have row := row_placedTags fdt query root
  have inItems : tag.item query ∈ (placedTags fdt root).map (PlacedTag.item query) :=
    mem_map_of_mem member
  obtain ⟨-, nonempty, atMost⟩ := row.mem_bounds inItems
  simp only [PlacedTag.item] at nonempty atMost
  constructor
  · intro chosen x atLeast less
    exact (covers x (by omega)).2 ((mem_coveredPositions row inItems atLeast less).1 chosen)
  · intro notEnd covered
    have first := (covers tag.offset (by omega)).1 (covered tag.offset le_rfl nonempty)
    exact (mem_coveredPositions row inItems le_rfl nonempty).2 (decide_eq_false notEnd) first

/-- The regions of spans in order are in order, not empty and in the structure block. -/
theorem regions_sorted {s : Spans} {start n : Nat} {base extra : Int} (sorted : s.Sorted n)
    (opened : s.start = some start) (noLess : 0 ≤ extra)
    (eq : regions = s.closed.map (spanRegion base) ++
      [{ offset := base + start, size := n - start + extra }]) :
    (regions.Pairwise fun x y => x.offset + x.size ≤ y.offset) ∧
      ∀ region ∈ regions, 0 < region.size ∧ base ≤ region.offset ∧
        region.offset + region.size ≤ base + n + extra := by
  have bounded := sorted.bounded
  rw [opened, getD_some] at bounded
  have startLess := sorted.opened start opened
  subst eq
  constructor
  · rw [pairwise_append, pairwise_map]
    refine ⟨sorted.pairwise.imp ?_, pairwise_singleton _ _, ?_⟩
    · intro x y before
      unfold spanRegion
      simp only
      omega
    intro region earlier last inLast
    obtain ⟨span, inClosed, rfl⟩ := mem_map.1 earlier
    obtain rfl := mem_singleton.1 inLast
    have before := bounded span inClosed
    unfold spanRegion
    simp only
    omega
  · intro region member
    rcases mem_append.1 member with earlier | last
    · obtain ⟨span, inClosed, rfl⟩ := mem_map.1 earlier
      have nonempty := sorted.nonempty span inClosed
      have before := bounded span inClosed
      unfold spanRegion
      simp only
      omega
    · obtain rfl := mem_singleton.1 last
      simp only
      omega

end Cover

/-- A search that succeeds with room for all regions covers exactly what has to be hashed. -/
theorem fdtFindRegions_covers (fdt : Memory) (root : FdtItems) (holds : FdtHolds fdt root)
    (query : RegionQuery) (rounds : Nat) (l : RegionList)
    (run : fdtFindRegions fdt query rounds = some (.ok l)) (room : l.count ≤ query.maxRegions) :
    RegionsCover fdt root query l.regions := by
  obtain ⟨start, opened⟩ : ∃ start, (treeSpans fdt query root).start = some start := treeSpans_open
  obtain ⟨sorted, positions⟩ : (treeSpans fdt query root).Sorted _ ∧ _ := treeSpans_spec
  have regions := fdtFindRegions_eq holds opened run room
  rw [holds.size] at sorted positions
  have strings : (0 : Int) ≤ if query.addStringTab then (fdtSizeDtStrings fdt : Int) else 0 := by
    split <;> omega
  have covers : ∀ x < tokensSize (fdtTokens root),
      (∃ region ∈ l.regions, region.offset ≤ regionBase fdt + x ∧
        regionBase fdt + x < region.offset + region.size) ↔
        x ∈ coveredPositions false ((placedTags fdt root).map (PlacedTag.item query)) := by
    intro x inBlock
    rw [regions, ← positions]
    exact mem_regions_iff opened strings (holds.size ▸ inBlock)
  obtain ⟨pairwise, bounds⟩ := regions_sorted sorted opened strings regions
  -- Apart from end tags, a tag is covered exactly if it is selected.
  have covered : ∀ tag ∈ placedTags fdt root, tag.kind ≠ .endNode →
      (TagCovered fdt l.regions tag ↔ tag.selected query = true) := by
    intro tag member notEnd
    obtain ⟨covered, selects⟩ := tagCovered_of_mem covers member
    exact ⟨selects notEnd, covered⟩
  refine ⟨pairwise, fun region member => (bounds region member).1,
    fun region member => (bounds region member).2, ?_, ?_, ?_, ?_, ?_⟩
  · intro tag member kind
    rw [covered tag member (by simp [kind])]
    simp [PlacedTag.selected, kind]
  · intro tag member name kind
    rw [covered tag member (by simp [kind])]
    simp [PlacedTag.selected, kind]
  · intro tag member kind
    rw [covered tag member (by simp [kind])]
    simp [PlacedTag.selected, kind]
  · intro tag member kind listed
    apply (tagCovered_of_mem covers member).1
    simpa only [PlacedTag.selected, kind, decide_eq_true_eq] using listed
  · intro tag member kind
    rw [covered tag member (by simp [kind])]
    simp only [PlacedTag.selected, kind]

def sampleItems : FdtItems :=
  .node (chars "conf") (.prop 0 [1] (.node (chars "sig") (.prop 0 [2] .nil) .nil))
    (.node (chars "other") .nil .nil)

def sampleTree : Memory := fdtBlob ((fdtTokens sampleItems).map bytes).flatten (chars "p" ++ [0])

def sampleQuery : RegionQuery where
  inc := [chars "/conf"]
  excProp := []
  maxRegions := 4
  pathLen := 40
  addStringTab := false

theorem sampleTree_holds : FdtHolds sampleTree sampleItems where
  magic := by decide
  version := by decide
  lastCompVersion := by decide
  totalsize := by decide
  structBlock := by decide
  stringsBlock := by decide
  tokens := by
    refine ⟨?_, ?_, ?_, ?_, ?_, ?_, ?_, ?_, ?_, ?_, ?_, trivial⟩ <;> unfold TokenAt <;> decide
  size := by decide
  plainNames := by refine ⟨?_, ⟨?_, trivial, trivial⟩, ?_, trivial, trivial⟩ <;> decide
  named := by refine ⟨⟨?_, ⟨?_, trivial⟩, trivial⟩, trivial, trivial⟩ <;> decide

theorem fdtFindRegions_covers_sample : RegionsCover sampleTree sampleItems sampleQuery
      [{ offset := 48, size := 36 }, { offset := 100, size := 8 }, { offset := 128, size := 4 }] :=
  fdtFindRegions_covers sampleTree sampleItems sampleTree_holds sampleQuery 20
    { count := 3
      regions :=
        [{ offset := 48, size := 36 }, { offset := 100, size := 8 }, { offset := 128, size := 4 }]
      start := 88 }
    (by decide +kernel) (by decide)

end UBoot
