import BashOs.Lib.Loop
import BashOs.Git.WorkTree.Clean
import BashOs.Git.WorkTree.TreeWrite

/-!
The trees built from an index are in git's order, and they are built whenever the paths fit: a directory's entries
stand together in the index, so each name comes up once.
-/

namespace BashOs.Git.WorkTree
open BashOs.Lib List Option FileName

/-! ## git's order -/

def TreeItem.sortName (item : TreeItem) : Bytes := item.name.bytes ++ if item.isTree then [0x2f] else []

def TreeItem.Before (a b : TreeItem) : Prop := a.name ≠ b.name ∧ a.sortName < b.sortName

def Ordered (body : Bytes) : Prop := ∃ items, treeItems body.length body = some items ∧ items.Pairwise TreeItem.Before

theorem compare_sortName {a b : Bytes} (dirA dirB : Bool) (plainA : 0x2f ∉ a ∧ 0 ∉ a) (plainB : 0x2f ∉ b ∧ 0 ∉ b)
    (unlike : a ≠ b) :
    (a.take (min a.length b.length) < b.take (min a.length b.length) ∨
      a.take (min a.length b.length) = b.take (min a.length b.length) ∧
        (a.length = b.length ∨ a.getD (min a.length b.length) (if dirA then 0x2f else 0) ≤
          b.getD (min a.length b.length) (if dirB then 0x2f else 0))) ↔
    (a ++ if dirA then [0x2f] else []) < b ++ if dirB then [0x2f] else [] := by
  induction a generalizing b with
  | nil =>
    cases b with
    | nil => exact (unlike rfl).elim
    | cons y b =>
      have slash : y ≠ 0x2f := fun same => plainB.1 (same ▸ (.head _))
      cases dirA
      · simp
      · simp [cons_lt_cons_iff, slash.symm, UInt8.le_iff_lt_or_eq]
  | cons x a ih =>
    cases b with
    | nil =>
      have slash : x ≠ 0x2f := fun same => plainA.1 (same ▸ (.head _))
      have zero : x ≠ 0 := fun same => plainA.2 (same ▸ (.head _))
      cases dirB
      · simpa using zero
      · simp [cons_lt_cons_iff, slash, UInt8.le_iff_lt_or_eq]
    | cons y b =>
      simp only [length_cons, Nat.add_min_add_right, take_succ_cons, cons_lt_cons_iff,  cons_append]
      by_cases same : x = y
      · subst same
        have rest := ih (b := b) ⟨fun inside => plainA.1 (.tail _ inside),
          fun inside => plainA.2 (.tail _ inside)⟩ ⟨fun inside => plainB.1 (.tail _ inside),
          fun inside => plainB.2 (.tail _ inside)⟩ (fun same => unlike (same ▸ rfl))
        simpa using rest
      · simp [same]

theorem eq_of_bytes {a b : FileName} (same : a.bytes = b.bytes) : a = b := by
  cases a
  cases same
  rfl

theorem childLE_iff {a b : TreeChild} (treeA : a.toTreeItem.isTree = a.isDir) (treeB : b.toTreeItem.isTree = b.isDir)
    (unlike : a.name ≠ b.name) : childLE a b ↔ a.toTreeItem.sortName < b.toTreeItem.sortName := by
  have bytes : a.name.bytes ≠ b.name.bytes := fun same => unlike (eq_of_bytes same)
  rw [TreeItem.sortName, TreeItem.sortName, treeA, treeB]
  exact compare_sortName a.isDir b.isDir ⟨a.name.ok.2.2.1, a.name.ok.2.1⟩ ⟨b.name.ok.2.2.1, b.name.ok.2.1⟩ bytes

theorem TreeItem.name_of_sortName {a b : TreeItem} (same : a.sortName = b.sortName) : a.name = b.name := by
  apply eq_of_bytes
  unfold TreeItem.sortName at same
  split at same
  · split at same
    · exact append_cancel_right same
    rw [append_nil] at same
    exact (b.name.ok.2.2.1 (same ▸ by simp)).elim
  · rw [append_nil] at same
    split at same
    · exact (a.name.ok.2.2.1 (same ▸ by simp)).elim
    · rwa [append_nil] at same

structure Siblings (children : List TreeChild) : Prop where
  names : (children.map fun child => child.name).Nodup
  trees : ∀ child ∈ children, child.toTreeItem.isTree = child.isDir
  digits : ∀ child ∈ children, Digits child.mode

section
variable {children : List TreeChild}

section
variable (siblings : Siblings children)
include siblings

theorem Siblings.cons {child : TreeChild} (fresh : ∀ other ∈ children, other.name ≠ child.name)
    (tree : child.toTreeItem.isTree = child.isDir) (digits : Digits child.mode) : Siblings (child :: children) where
  names := by
    rw [map_cons, nodup_cons]
    refine ⟨fun again => ?_, siblings.names⟩
    obtain ⟨other, among, same⟩ := mem_map.1 again
    exact fresh other among same
  trees := forall_mem_cons.2 ⟨tree, siblings.trees⟩
  digits := forall_mem_cons.2 ⟨digits, siblings.digits⟩

theorem Siblings.compare :
    ∀ a ∈ children, ∀ b ∈ children, childLE a b ↔ a.toTreeItem.sortName ≤ b.toTreeItem.sortName := by
  intro a insideA b insideB
  by_cases same : a.name = b.name
  · have child : a = b := inj_on_of_nodup_map siblings.names insideA insideB same
    subst child
    exact iff_of_true (.inr ⟨rfl, .inl rfl⟩) (List.le_refl _)
  rw [childLE_iff (siblings.trees a insideA) (siblings.trees b insideB) same]
  constructor
  · exact List.le_of_lt
  · intro below
    obtain less | equal := List.le_iff_lt_or_eq.1 below
    · exact less
    · exact (same (TreeItem.name_of_sortName equal)).elim

theorem Siblings.sorted : (children.insertionSort childLE).Pairwise fun a b => a.toTreeItem.Before b.toTreeItem := by
  have texts : ((children.insertionSort childLE).map fun child => child.toTreeItem.sortName) =
      (children.map fun child => child.toTreeItem.sortName).insertionSort (· ≤ ·) :=
    map_insertionSort childLE (· ≤ ·) _ children siblings.compare
  have ascending : (children.insertionSort childLE).Pairwise fun a b =>
      a.toTreeItem.sortName ≤ b.toTreeItem.sortName := by
    rw [← pairwise_map, texts]
    exact pairwise_insertionSort (· ≤ ·) _
  have unlike : (children.insertionSort childLE).Pairwise fun a b => a.name ≠ b.name := by
    rw [← pairwise_map]
    exact ((perm_insertionSort childLE children).map _).nodup_iff.2 siblings.names
  apply (List.Pairwise.and ascending unlike).imp
  rintro a b ⟨below, other⟩
  refine ⟨other, ?_⟩
  obtain less | equal := List.le_iff_lt_or_eq.1 below
  · exact less
  · exact (other (TreeItem.name_of_sortName equal)).elim

theorem Siblings.ordered : Ordered (treeBody children) := by
  have bytes : treeBody children = ((children.insertionSort childLE).map TreeChild.toTreeItem).flatMap
      TreeItem.encode := by
    rw [treeBody, flatMap_map]
  refine ⟨(children.insertionSort childLE).map TreeChild.toTreeItem, ?_, pairwise_map.2 siblings.sorted⟩
  rw [bytes]
  apply treeItems_encode
  · intro item inside
    obtain ⟨child, among, rfl⟩ := mem_map.1 inside
    exact siblings.digits child ((mem_insertionSort childLE).1 among)
  · exact length_le_encode _

end

end

/-! ## The entries of a directory stand together -/

variable {dir names : List FileName} {entry : IndexEntry} {first : Index} {id : ObjectId}

theorem below_ne_nil_iff : below dir names ≠ [] ↔ dir <:+ names ∧ names ≠ dir := by
  unfold below
  split
  next inside =>
    obtain ⟨front, rfl⟩ := inside
    simp
  next outside => simp [outside]

theorem below_deeper {more : List FileName} {name second : FileName}
    (parts : (below dir names).reverse = name :: second :: more) : below (name :: dir) names ≠ [] := by
  have whole := below_eq (reverse_eq_iff.1 parts) (by simp)
  refine below_ne_nil_iff.2 ⟨⟨more.reverse ++ [second], by rw [whole]; simp⟩, fun same => ?_⟩
  have := congrArg length (whole.symm.trans same)
  simp at this
  omega

theorem below_iff_text (path : IndexPath) (some : dir ≠ []) :
    below dir path.names ≠ [] ↔ dirText dir ++ [0x2f] <+: path.text := by
  have plain : ∀ names : List FileName, ∀ part ∈ names.reverse.map bytes, (0x2f : UInt8) ∉ part := by
    intro names part inside
    obtain ⟨name, -, rfl⟩ := mem_map.1 inside
    exact name.ok.2.2.1
  have bytes : Function.Injective bytes := fun a b => eq_of_bytes
  have lead : dir.reverse.map FileName.bytes <+: path.names.reverse.map FileName.bytes ↔ dir <:+ path.names := by
    rw [← reverse_prefix]
    constructor
    · intro front
      obtain ⟨names, inside, same⟩ := prefix_map_iff.1 front
      rwa [map_injective_iff.2 bytes same]
    · exact fun inside => inside.map _
  have whole : dir.reverse.map FileName.bytes = path.names.reverse.map FileName.bytes ↔ path.names = dir := by
    rw [(map_injective_iff.2 bytes).eq_iff, reverse_inj, eq_comm]
  rw [dirText, IndexPath.text, join_prefix_iff (by simpa using some) (plain dir) (plain path.names),
    below_ne_nil_iff, lead,
    Ne, Ne, whole]

section
variable {host : Host} {levels turns : Nat} {dir : List FileName} {entries left : Index} {children : List TreeChild}
  {bodies : List Bytes}

theorem builds_takes (builds : Builds host dir entries children bodies left) :
    ∃ used, entries = used ++ left ∧ ∀ entry ∈ left.head?, below dir entry.path.names = [] := by
  induction builds with
  | stop out => exact ⟨[], rfl, out⟩
  | file parts run ih =>
    obtain ⟨used, rfl, stop⟩ := ih
    exact ⟨_ :: used, rfl, stop⟩
  | tree parts room down named run ihDown ih =>
    obtain ⟨first, split, -⟩ := ihDown
    obtain ⟨used, rfl, stop⟩ := ih
    exact ⟨first ++ used, by rw [split, append_assoc], stop⟩

theorem builds_first {rest : Index} (builds : Builds host dir (entry :: rest) children bodies left)
    (under : below dir entry.path.names ≠ []) (split : entry :: rest = first ++ left) : entry ∈ first := by
  obtain ⟨used, split', stop⟩ := builds_takes builds
  cases first with
  | nil =>
    rw [nil_append] at split
    rw [← split] at stop
    exact (under (stop entry rfl)).elim
  | cons other first =>
    cases split
    exact .head _

theorem leaves_dir (some : dir ≠ []) (sorted : Ascending (first ++ left)) (apart : Listing (first ++ left))
    (here : entry ∈ first) (inside : below dir entry.path.names ≠ [])
    (stop : ∀ other ∈ left.head?, below dir other.path.names = []) : ∀ other ∈ left, ¬ dir <:+ other.path.names := by
  intro other member through
  have unlike : other.path.names ≠ dir := by
    intro same
    have between := (pairwise_append.1 apart).2.2 entry here other member
    exact between.2 (same ▸ (below_ne_nil_iff.1 inside).1)
  have under : below dir other.path.names ≠ [] := below_ne_nil_iff.2 ⟨through, unlike⟩
  cases left with
  | nil => cases member
  | cons next rest =>
    have next_out := stop next rfl
    obtain rfl | later := mem_cons.1 member
    · exact under next_out
    · have above := (pairwise_append.1 sorted).2.2 entry here next (.head _)
      have before := (pairwise_cons.1 (pairwise_append.1 sorted).2.1).1 other later
      rw [below_iff_text _ some] at inside under
      exact (below_iff_text _ some).2 (prefix_of_between inside under above before) next_out

theorem builds_siblings (builds : Builds host dir entries children bodies left)
    (sorted : Ascending entries) (apart : Listing entries) (modes : ∀ entry ∈ entries, StandardMode entry.mode) :
    Siblings children ∧ (∀ body ∈ bodies, Ordered body) ∧
      ∀ child ∈ children, ∃ entry ∈ entries, child.name :: dir <:+ entry.path.names := by
  induction builds with
  | stop => exact ⟨⟨nodup_nil, by simp, by simp⟩, by simp, by simp⟩
  | @file dir entry rest left name children bodies parts run ih =>
    obtain ⟨siblings, ordered, lead⟩ := ih (pairwise_cons.1 sorted).2 (pairwise_cons.1 apart).2
      fun other inside => modes other (.tail _ inside)
    obtain ⟨digits, -, five, six⟩ := octalText_standard (modes entry (.head _))
    have names : entry.path.names = [name] ++ dir := below_eq (reverse_eq_iff.1 parts) (cons_ne_nil _ _)
    refine ⟨siblings.cons (fun child among same => ?_) (by simp [TreeItem.isTree, five, six]) digits, ordered, ?_⟩
    · obtain ⟨other, member, through⟩ := lead child among
      rw [show child.name = name from same] at through
      exact ((pairwise_cons.1 apart).1 other member).1 (names ▸ through)
    · rw [forall_mem_cons]
      refine ⟨⟨entry, .head _, [], names.symm⟩, fun child among => ?_⟩
      obtain ⟨other, member, through⟩ := lead child among
      exact ⟨other, .tail _ member, through⟩
  | @tree dir entry rest between left name second more inner children written bodies id parts room down named run ihDown ih =>
    obtain ⟨siblingsInner, orderedInner, -⟩ := ihDown sorted apart modes
    obtain ⟨first, split, stop⟩ := builds_takes down
    have under := below_deeper parts
    have through := (below_ne_nil_iff.1 under).1
    have used := builds_first down under split
    rw [split] at sorted apart modes
    have gone := leaves_dir (cons_ne_nil _ _) sorted apart used under stop
    obtain ⟨siblings, ordered, lead⟩ := ih (pairwise_append.1 sorted).2.1 (pairwise_append.1 apart).2.1
      fun other inside => modes other (mem_append_right _ inside)
    refine ⟨siblings.cons (fun child among same => ?_) (by simp [TreeItem.isTree]) digits_tree, ?_, ?_⟩
    · obtain ⟨other, member, through⟩ := lead child among
      rw [show child.name = name from same] at through
      exact gone other member through
    · intro body member
      obtain member | member := mem_append.1 member
      · exact orderedInner body member
      · obtain rfl | member := mem_cons.1 member
        · exact siblingsInner.ordered
        · exact ordered body member
    · rw [forall_mem_cons]
      refine ⟨⟨entry, .head _, through⟩, fun child among => ?_⟩
      obtain ⟨other, member, through⟩ := lead child among
      exact ⟨other, split ▸ mem_append_right _ member, through⟩

/-! ## Room and turns -/

def weight (entries : Index) : Nat := (entries.map fun entry => entry.path.text.length + 73).sum

theorem weight_append (first second : Index) : weight (first ++ second) = weight first + weight second := by
  simp [weight]

theorem weight_cons (entry : IndexEntry) (rest : Index) :
    weight (entry :: rest) = entry.path.text.length + 73 + weight rest := by
  simp [weight]

theorem weight_mem (member : entry ∈ entries) : entry.path.text.length + 73 ≤ weight entries := by
  obtain ⟨before, after, rfl⟩ := append_of_mem member
  rw [weight_append, weight_cons]
  omega

def bodyLength (children : List TreeChild) : Nat := (children.map fun child => child.toTreeItem.encode.length).sum

theorem length_treeBody (children : List TreeChild) : (treeBody children).length = bodyLength children := by
  rw [treeBody, length_flatMap]
  exact ((perm_insertionSort childLE children).map _).sum_nat

theorem length_encode (item : TreeItem) : item.encode.length = item.mode.length + item.name.bytes.length + 22 := by
  have := item.sha.width
  simp [TreeItem.encode]
  omega

theorem name_le_text {name : FileName} (path : IndexPath) (through : name :: dir <:+ path.names) :
    name.bytes.length ≤ path.text.length := by
  apply length_le_join
  exact mem_map_of_mem (mem_reverse.2 (through.subset (.head _)))

theorem builds_weight (builds : Builds host dir entries children bodies left) :
    ∃ used, entries = used ++ left ∧ bodyLength children ≤ weight used ∧
      ∀ body ∈ bodies, body.length ≤ weight used := by
  induction builds with
  | stop => exact ⟨[], rfl, by simp [bodyLength], by simp⟩
  | @file dir entry rest left name children bodies parts run ih =>
    obtain ⟨used, rfl, small, each⟩ := ih
    have names : entry.path.names = [name] ++ dir := below_eq (reverse_eq_iff.1 parts) (cons_ne_nil _ _)
    have short := name_le_text entry.path ⟨[], names.symm⟩
    have mode : (octalText entry.mode).length ≤ 7 := by simp [octalText]
    refine ⟨entry :: used, rfl, ?_, fun body member => ?_⟩
    · rw [bodyLength, map_cons, sum_cons, length_encode, weight_cons]
      unfold bodyLength at small
      dsimp only
      omega
    · have := each body member
      rw [weight_cons]
      omega
  | @tree dir entry rest between left name second more inner children written bodies id parts room down named run ihDown ih =>
    obtain ⟨first, split, smallInner, eachInner⟩ := ihDown
    obtain ⟨used, rfl, small, each⟩ := ih
    have under := below_deeper parts
    have short := name_le_text entry.path (below_ne_nil_iff.1 under).1
    have heavy := weight_mem (builds_first down under split)
    have five : (ascii "40000").length = 5 := by decide +kernel
    refine ⟨first ++ used, by rw [split, append_assoc], ?_, fun body member => ?_⟩
    · rw [bodyLength, map_cons, sum_cons, length_encode, weight_append]
      unfold bodyLength at small
      dsimp only
      omega
    · rw [weight_append]
      obtain member | member := mem_append.1 member
      · have := eachInner body member
        omega
      obtain rfl | member := mem_cons.1 member
      · rw [length_treeBody]
        omega
      · have := each body member
        omega

/-- The host with a hash that reports no attacks. -/
def Host.trusting (host : Host) : Host := { host with prim := { host.prim with attacked := fun _ => false } }

theorem objectId_trusting (type : ObjectType) (content : Bytes) :
    ∃ id, objectId host.trusting type content = some id := by
  rw [objectId, framedId]
  exact ⟨_, if_neg Bool.false_ne_true⟩

theorem objectId_calm {type : ObjectType} {content : Bytes} (calm : (objectId host type content).isSome) :
    objectId host type content = objectId host.trusting type content := by
  unfold objectId framedId at *
  dsimp only at *
  split at calm
  · cases calm
  next none => rw [if_neg none]; rfl

/-- Trees in which no attack is reported are built as if none could be. -/
theorem buildLevel_calm (built : buildLevel host.trusting levels turns dir entries = some (children, bodies, left))
    (calm : ∀ body ∈ bodies, (objectId host .tree body).isSome) :
    buildLevel host levels turns dir entries = some (children, bodies, left) := by
  induction turns generalizing dir entries children bodies left with
  | zero => cases built
  | succ turns ih =>
    cases entries with
    | nil => exact built
    | cons entry rest =>
      rw [buildLevel] at built ⊢
      split at built
      next parts => exact built
      next parts =>
        obtain ⟨⟨others, bodies', left'⟩, run, same⟩ := map_eq_some_iff.1 built
        cases same
        rw [ih run calm]
        rfl
      next parts =>
        split at built
        · cases built
        next room =>
          simp only [bind_eq_some_iff] at built
          obtain ⟨⟨inner, written, between⟩, down, id, named, built⟩ := built
          obtain ⟨⟨others, bodies', left'⟩, run, same⟩ := map_eq_some_iff.1 built
          cases same
          have inside := ih down fun body member => calm body (mem_append_left _ member)
          have here := objectId_calm (calm (treeBody inner) (mem_append_right _ mem_cons_self))
          have after := ih run fun body member => calm body (mem_append_right _ (mem_cons_of_mem _ member))
          rw [if_neg room, inside, bind_some]
          dsimp only at named after ⊢
          rw [here, named, bind_some, after]
          rfl

theorem dirText_lt (name : FileName) (dir : List FileName) : (dirText dir).length < (dirText (name :: dir)).length := by
  have full : 0 < name.bytes.length := length_pos_iff.2 name.ok.1
  unfold dirText
  cases dir with
  | nil => simpa using full
  | cons above dir =>
    have last : (name :: above :: dir).reverse = (above :: dir).reverse ++ [name] := reverse_cons
    rw [last, map_append, intercalate_append_parts (by simp) (by simp)]
    simp

theorem buildLevel_some (short : ∀ entry ∈ entries, entry.path.text.length < 4096)
    (deep : ∀ entry ∈ entries, entry.path.names.length ≤ levels + 1)
    (enough : entries.length + (4096 - (dirText dir).length) < turns) :
    ∃ result, buildLevel host.trusting levels turns dir entries = some result := by
  induction turns generalizing dir entries with
  | zero => omega
  | succ turns ih =>
    cases entries with
    | nil => exact ⟨_, rfl⟩
    | cons entry rest =>
      have shortRest : ∀ other ∈ rest, other.path.text.length < 4096 := fun other inside => short other (.tail _ inside)
      rw [length_cons] at enough
      rw [buildLevel]
      split
      · exact ⟨_, rfl⟩
      next name parts =>
        obtain ⟨result, run⟩ := @ih dir rest shortRest (fun other inside => deep other (.tail _ inside)) (by omega)
        exact ⟨_, by rw [run]; rfl⟩
      next name second more parts =>
        have under := below_deeper parts
        have longer := dirText_lt name dir
        have fits : (dirText (name :: dir)).length + 1 < 4096 := by
          have inside := ((below_iff_text entry.path (cons_ne_nil _ _)).1 under).length_le
          have := short entry (.head _)
          rw [length_append, length_singleton] at inside
          omega
        -- the entry is at least one directory further down
        have level : ¬ levels < (name :: dir).length := by
          have names := deep entry (.head _)
          rw [below_eq (reverse_eq_iff.1 parts) (by simp)] at names
          simp only [reverse_cons, append_assoc, length_append, length_reverse, length_cons, length_nil] at names ⊢
          omega
        rw [if_neg (not_or.2 ⟨not_le.2 fits, level⟩)]
        obtain ⟨⟨inner, written, between⟩, down⟩ :=
          @ih (name :: dir) (entry :: rest) short deep (by rw [length_cons]; omega)
        obtain ⟨id, named⟩ := @objectId_trusting host .tree (treeBody inner)
        obtain ⟨first, split, -⟩ := builds_takes (builds_of_buildLevel down)
        have some := length_pos_of_mem (builds_first (builds_of_buildLevel down) under split)
        have fewer := congrArg length split
        rw [length_cons, length_append] at fewer
        have shortLeft : ∀ other ∈ between, other.path.text.length < 4096 := fun other inside =>
          short other (split ▸ mem_append_right _ inside)
        have deepLeft : ∀ other ∈ between, other.path.names.length ≤ levels + 1 := fun other inside =>
          deep other (split ▸ mem_append_right _ inside)
        obtain ⟨result, run⟩ := @ih dir between shortLeft deepLeft (by omega)
        exact ⟨_, by simp only [down, named, run, bind_some]; rfl⟩

/-! ## The round trip -/

theorem buildTree_some (stages : ∀ entry ∈ entries, entry.stage = 0)
    (short : ∀ entry ∈ entries, entry.path.text.length < 4096)
    (deep : ∀ entry ∈ entries, entry.path.names.length ≤ levels + 1)
    (calm : ∀ id bodies, buildTree host.trusting levels entries = some (id, bodies) →
      ∀ body ∈ bodies, (objectId host .tree body).isSome) :
    ∃ id bodies, buildTree host levels entries = some (id, bodies) := by
  have level : ∃ result, buildLevel host.trusting levels (entries.length + 4097) [] entries = some result :=
    buildLevel_some short deep (by simp [dirText])
  obtain ⟨⟨children, bodies, left⟩, built⟩ := level
  obtain ⟨id, named⟩ := @objectId_trusting host .tree (treeBody children)
  have staged : ¬ (entries.any fun entry => entry.stage ≠ 0) = true := by simpa using stages
  have whole : buildTree host.trusting levels entries = some (id, bodies ++ [treeBody children]) := by
    rw [buildTree, if_neg staged, built, bind_some]
    exact map_eq_some_iff.2 ⟨id, named, rfl⟩
  have quiet := calm _ _ whole
  have level := buildLevel_calm built fun body member => quiet body (mem_append_left _ member)
  have top := objectId_calm (quiet (treeBody children) (mem_append_right _ (mem_singleton.2 rfl)))
  refine ⟨id, bodies ++ [treeBody children], ?_⟩
  rw [buildTree, if_neg staged, level, bind_some]
  exact map_eq_some_iff.2 ⟨id, top.trans named, rfl⟩

theorem buildTree_ordered (built : buildTree host levels entries = some (id, bodies)) (sorted : Ascending entries)
    (apart : Listing entries) (modes : ∀ entry ∈ entries, StandardMode entry.mode) :
    ∀ body ∈ bodies, Ordered body ∧ body.length ≤ weight entries := by
  unfold buildTree at built
  split at built
  · cases built
  obtain ⟨⟨children, inner, left⟩, level, built⟩ := bind_eq_some_iff.1 built
  obtain ⟨id', named, same⟩ := map_eq_some_iff.1 built
  cases same
  obtain ⟨siblings, ordered, -⟩ := builds_siblings (builds_of_buildLevel level) sorted apart modes
  obtain ⟨used, split, small, each⟩ := builds_weight (builds_of_buildLevel level)
  rw [split, weight_append]
  intro body member
  obtain member | member := mem_append.1 member
  · exact ⟨ordered body member, le_trans (each body member) (Nat.le_add_right _ _)⟩
  · obtain rfl := mem_singleton.1 member
    refine ⟨siblings.ordered, ?_⟩
    rw [length_treeBody]
    omega

theorem mapM_treeObject (fit : ∀ body ∈ bodies, body.length < addressSpace) :
    ∃ objects, bodies.mapM treeObject = some objects ∧
      (∀ object ∈ objects, object.type = .tree ∧ object.content ∈ bodies) ∧
      ∀ body ∈ bodies, ∃ object ∈ objects, object.type = .tree ∧ object.content = body := by
  induction bodies with
  | nil => exact ⟨[], rfl, by simp, by simp⟩
  | cons body rest ih =>
    obtain ⟨objects, listed, trees, each⟩ := ih fun other inside => fit other (.tail _ inside)
    have first : treeObject body = some ⟨.tree, body, fit body (.head _)⟩ := dif_pos _
    refine ⟨⟨.tree, body, fit body (.head _)⟩ :: objects, by simp [first, listed], ?_, ?_⟩
    · rw [forall_mem_cons]
      exact ⟨⟨rfl, .head _⟩, fun object inside => ⟨(trees object inside).1, .tail _ (trees object inside).2⟩⟩
    · rw [forall_mem_cons]
      refine ⟨⟨_, .head _, rfl, rfl⟩, fun other inside => ?_⟩
      obtain ⟨object, among, facts⟩ := each other inside
      exact ⟨object, .tail _ among, facts⟩

/-- Entries in order whose paths fit the buffers and whose directories fit the stack come back from the tree that is
written of them, if sha1dc reports no attack in the trees. `known` are the objects that the hash is to tell apart: those
in the store, and the trees. -/
theorem write_tree_round_trip (host : Host) (levels : Nat) (read : Objects) (known : Object → Prop)
    (entries : List IndexEntry) (sorted : Ascending entries) (apart : Listing entries)
    (stages : ∀ entry ∈ entries, entry.stage = 0) (modes : ∀ entry ∈ entries, StandardMode entry.mode)
    (short : ∀ entry ∈ entries, entry.path.text.length < 4096)
    (deep : ∀ entry ∈ entries, entry.path.names.length ≤ levels + 1) (held : weight entries < 2 ^ 32)
    (calm : ∀ id bodies, buildTree host.trusting levels entries = some (id, bodies) →
      ∀ body ∈ bodies, (objectId host .tree body).isSome)
    (unlike : ContentStore.Apart (objectName host) known) (inside : ContentStore.Within (objectName host) known read)
    (trees : ∀ id bodies, buildTree host levels entries = some (id, bodies) →
      ∀ object : Object, object.type = .tree → object.content ∈ bodies → known object) :
    ∃ id after, writeTree host levels read entries = some (id, after) ∧
      (∀ key object, after key = some object → read key = some object ∨ object.type = .tree ∧ Ordered object.content) ∧
      readTreeIn (levels + 1) after id = some (entries.map IndexEntry.listed) := by
  obtain ⟨id, bodies, built⟩ := buildTree_some stages short deep calm
  have held : weight entries < addressSpace := held.trans (by decide)
  have facts := buildTree_ordered built sorted apart modes
  obtain ⟨objects, listed, tree, each⟩ := mapM_treeObject fun body member => lt_of_le_of_lt (facts body member).2 held
  obtain ⟨after, ran, -, -, reads⟩ := ContentStore.putAll_reads unlike inside
    fun object member => trees id bodies built object (tree object member).1 (tree object member).2
  refine ⟨id, after, by simp [writeTree, built, listed, ran], ?_, ?_⟩
  · intro key object found
    obtain before | new := ContentStore.putAll_mem ran found
    · exact .inl before
    · exact .inr ⟨(tree object new).1, (facts _ (tree object new).2).1⟩
  · refine readTree_buildTree built (fun body member => ?_) modes short deep sorted
    obtain ⟨object, among, type, content⟩ := each body member
    obtain ⟨key, named, found⟩ := reads object among
    refine ⟨key, object, ?_, found, type, content⟩
    rw [← named, objectName, type, content]

theorem treeWalk_short {read : Objects} {depth : Nat} {above : Option IndexPath}
    (walked : treeWalk read depth above id = some entries) : ∀ entry ∈ entries, entry.path.text.length < 4096 := by
  induction depth generalizing above id entries with
  | zero => cases walked
  | succ depth ih =>
    obtain ⟨object, -, walked⟩ := bind_eq_some_iff.1 walked
    split at walked
    · cases walked
    obtain ⟨items, -, walked⟩ := bind_eq_some_iff.1 walked
    obtain ⟨lists, each, rfl⟩ := map_eq_some_iff.1 walked
    intro entry inside
    obtain ⟨list, among, member⟩ := mem_flatten.1 inside
    obtain ⟨item, -, found⟩ := mem_of_mapM each among
    dsimp only at found
    split at found
    · cases found
    rename_i short
    split at found
    · split at found
      · cases found
      · exact ih found entry member
    · cases found
      obtain rfl := mem_singleton.1 member
      exact not_le.1 short

end

/-- `f` below 2048 directories of that name: a path of 4097 bytes. -/
def entryDeep : IndexEntry :=
  { entryF 1 with
    path := ⟨List.replicate 2049 nameF, List.ne_nil_of_length_pos (by rw [length_replicate]; decide),
      fun name member => by rw [eq_of_mem_replicate member]; decide⟩ }

theorem entryDeep_long : 4096 < entryDeep.path.text.length := by
  have := names_le_text entryDeep.path
  have names : entryDeep.path.names.length = 2049 := length_replicate
  omega

/-- A path that the index can hold and a tree cannot, however much stack there is. -/
theorem long_path_lost :
    Ascending [entryDeep] ∧ Listing [entryDeep] ∧ entryDeep.stage = 0 ∧ StandardMode entryDeep.mode ∧
    (∀ bytes, sampleHost.prim.attacked bytes = false) ∧
    ¬ ∃ levels id after, writeTree sampleHost levels (fun _ => none) [entryDeep] = some (id, after) ∧
      readTreeIn (levels + 1) after id = some ([entryDeep].map IndexEntry.listed) := by
  refine ⟨pairwise_singleton _ _, pairwise_singleton _ _, rfl, .inl (.inl rfl), fun _ => rfl, ?_⟩
  rintro ⟨levels, id, after, -, found⟩
  obtain ⟨list, walked, same⟩ := map_eq_some_iff.1 found
  have short := treeWalk_short walked entryDeep.listed ((mem_insertionSort entryLE).1 (same ▸ .head _))
  have long := entryDeep_long
  rw [show entryDeep.listed.path = entryDeep.path from rfl] at short
  omega

def treeOfG : Bytes := ascii "100644 g" ++ 0 :: (byteId 1).bytes

def treeOfFG : Bytes := ascii "40000 f" ++ 0 :: (byteId 1).bytes ++ ascii "100644 g" ++ 0 :: (byteId 2).bytes

/-- The trees of `f/g` and `g`, written and read. -/
theorem write_tree_sample :
    Ascending [entryFG, entryG] ∧ Listing [entryFG, entryG] ∧
    ∃ id after, writeTree sampleHost 1 (fun _ => none) [entryFG, entryG] = some (id, after) ∧
      (∀ key object, after key = some object → none = some object ∨ object.type = .tree ∧ Ordered object.content) ∧
      readTreeIn 2 after id = some ([entryFG, entryG].map IndexEntry.listed) := by
  have sorted : Ascending [entryFG, entryG] := by
    unfold Ascending
    decide +kernel
  have apart : Listing [entryFG, entryG] := by
    unfold Listing
    decide +kernel
  have built : buildTree sampleHost 1 [entryFG, entryG] = some (byteId 2, [treeOfG, treeOfFG]) := by decide +kernel
  have small : treeOfG.length < addressSpace ∧ treeOfFG.length < addressSpace := by decide +kernel
  have other : objectId sampleHost .tree treeOfG ≠ objectId sampleHost .tree treeOfFG := by decide +kernel
  refine ⟨sorted, apart, write_tree_round_trip sampleHost 1 (fun _ => none)
    (fun object => object = ⟨.tree, treeOfG, small.1⟩ ∨ object = ⟨.tree, treeOfFG, small.2⟩)
      [entryFG, entryG] sorted apart
    (by decide +kernel) (by unfold StandardMode FileMode; decide +kernel) (by decide +kernel) (by decide +kernel)
    (by decide +kernel) (fun _ _ _ _ _ => rfl) ⟨?_, ?_⟩ nofun ?_⟩
  · rintro object (rfl | rfl) <;> rfl
  · rintro key a b (rfl | rfl) (rfl | rfl) nameA nameB
    · rfl
    · exact (other (nameA.trans nameB.symm)).elim
    · exact (other (nameB.trans nameA.symm)).elim
    · rfl
  · rintro id bodies built' ⟨type, content, fits⟩ tree member
    cases built.symm.trans built'
    subst tree
    obtain rfl | member := mem_cons.1 member
    · exact .inl rfl
    · obtain rfl := mem_singleton.1 member
      exact .inr rfl

end BashOs.Git.WorkTree
