import Mathlib.Data.List.AList

/-!
A tree of directories and leaves, and the calls that read and change it. A place is the list of the names
that lead to it, the innermost first: its tail is the directory it lies in, and the root is the empty list.
A call that is refused answers nothing and changes nothing.
-/

namespace BashOs.Lib
open List

inductive Node (Leaf : Type) where
  | dir
  | leaf (held : Leaf)
deriving DecidableEq, Repr

def Node.held {Leaf : Type} : Node Leaf → Option Leaf
  | .dir => none
  | .leaf held => some held

structure FileTree (Name Leaf : Type) [DecidableEq Name] where
  nodes : AList fun _ : List Name => Node Leaf
  closed : ∀ name up, name :: up ∈ nodes → up = [] ∨ nodes.lookup up = some .dir

namespace FileTree

variable {Name Leaf : Type} [DecidableEq Name] {floor : Nat} {q : List Name}

def node (tree : FileTree Name Leaf) : List Name → Option (Node Leaf)
  | [] => some .dir
  | name :: up => tree.nodes.lookup (name :: up)

def leaf (tree : FileTree Name Leaf) (place : List Name) : Option Leaf :=
  (tree.node place).bind Node.held

def isDir (tree : FileTree Name Leaf) (place : List Name) : Bool :=
  match tree.node place with
  | some .dir => true
  | _ => false

variable {tree after : FileTree Name Leaf} {name : Name} {place up : List Name} {held : Leaf} {thing : Node Leaf}

theorem leaf_eq_some : tree.leaf place = some held ↔ tree.node place = some (.leaf held) := by
  unfold leaf
  cases tree.node place with
  | none => simp
  | some thing => cases thing <;> simp [Node.held]

theorem isDir_iff : tree.isDir place ↔ tree.node place = some .dir := by
  unfold isDir
  split
  next dir => simp [dir]
  next other => simpa using other

theorem node_up (present : tree.node (name :: up) ≠ none) : tree.node up = some .dir := by
  have member : name :: up ∈ tree.nodes := AList.lookup_isSome.1 (Option.isSome_iff_ne_none.2 present)
  cases up with
  | nil => rfl
  | cons next rest => exact (tree.closed name (next :: rest) member).resolve_left (cons_ne_nil _ _)

theorem node_up_of_eq (here : tree.node (name :: up) = some thing) : tree.node up = some .dir :=
  node_up (by rw [here]; exact Option.some_ne_none thing)

theorem node_above {above : List Name} (present : tree.node place ≠ none) (higher : above <:+ place)
    (other : above ≠ place) : tree.node above = some .dir := by
  induction place with
  | nil => exact (other (suffix_nil.1 higher)).elim
  | cons name up ih =>
    obtain same | higher := suffix_cons_iff.1 higher
    · exact (other same).elim
    · have here := node_up present
      by_cases same : above = up
      · exact same ▸ here
      · exact ih (by simp [here]) higher same

theorem mem_keys_of_node (present : tree.node (name :: up) ≠ none) : name :: up ∈ tree.nodes.keys :=
  AList.mem_keys.1 (AList.lookup_isSome.1 (Option.isSome_iff_ne_none.2 present))

def empty : FileTree Name Leaf := ⟨∅, fun _ _ member => (AList.notMem_empty _ member).elim⟩

theorem empty_top : (empty : FileTree Name Leaf).node [] = some .dir := rfl

theorem empty_free (name : Name) : (empty : FileTree Name Leaf).node [name] = none := rfl

/-! ### Single changes -/

def put (tree : FileTree Name Leaf) (name : Name) (up : List Name) (thing : Node Leaf)
    (room : tree.node up = some .dir) (free : tree.node (name :: up) = none) : FileTree Name Leaf where
  nodes := tree.nodes.insert (name :: up) thing
  closed := by
    intro other above member
    have keep : ∀ q : List Name, q ≠ name :: up →
        (tree.nodes.insert (name :: up) thing).lookup q = tree.nodes.lookup q :=
      fun q distinct => AList.lookup_insert_ne distinct
    obtain same | member := (AList.mem_insert _).1 member
    · cases same
      cases up with
      | nil => exact .inl rfl
      | cons next rest => exact .inr ((keep _ (ne_cons_self)).trans room)
    obtain root | dir := tree.closed other above member
    · exact .inl root
    · by_cases same : above = name :: up
      · subst same
        cases free.symm.trans dir
      · exact .inr ((keep above same).trans dir)

def take (tree : FileTree Name Leaf) (name : Name) (up : List Name)
    (bare : ∀ child, tree.node (child :: name :: up) = none) : FileTree Name Leaf where
  nodes := tree.nodes.erase (name :: up)
  closed := by
    intro other above member
    obtain ⟨-, member⟩ := AList.mem_erase.1 member
    obtain root | dir := tree.closed other above member
    · exact .inl root
    by_cases same : above = name :: up
    · subst same
      have present := AList.lookup_isSome.2 member
      rw [show tree.nodes.lookup (other :: name :: up) = none from bare other] at present
      cases present
    · exact .inr ((AList.lookup_erase_ne same).trans dir)

theorem node_put (room : tree.node up = some .dir) (free : tree.node (name :: up) = none) (q : List Name) :
    (tree.put name up thing room free).node q = if q = name :: up then some thing else tree.node q := by
  cases q with
  | nil => rfl
  | cons first rest =>
    split
    next same =>
      rw [same]
      exact AList.lookup_insert _
    next distinct => exact AList.lookup_insert_ne distinct

theorem node_take (bare : ∀ child, tree.node (child :: name :: up) = none) (q : List Name) :
    (tree.take name up bare).node q = if q = name :: up then none else tree.node q := by
  cases q with
  | nil => rfl
  | cons first rest =>
    split
    next same =>
      rw [same]
      exact AList.lookup_erase _ _
    next distinct => exact AList.lookup_erase_ne distinct

/-! ### Calls -/

def bare (tree : FileTree Name Leaf) (place : List Name) : Bool :=
  tree.nodes.keys.all fun other => other.tail ≠ place

theorem bare_iff : tree.bare (name :: up) ↔ ∀ child, tree.node (child :: name :: up) = none := by
  unfold bare
  rw [all_eq_true]
  constructor
  · intro none child
    apply AList.lookup_eq_none.2
    intro member
    simpa using none _ (AList.mem_keys.1 member)
  · intro none other member
    cases other with
    | nil => simp
    | cons child rest =>
      have present := AList.lookup_isSome.2 (AList.mem_keys.2 member)
      by_cases same : rest = name :: up
      · subst same
        rw [show tree.nodes.lookup (child :: name :: up) = _ from none child] at present
        cases present
      · simp [same]

theorem leaf_bare (here : tree.leaf place = some held) (child : Name) : tree.node (child :: place) = none := by
  by_contra present
  have dir := node_up present
  rw [leaf_eq_some.1 here] at dir
  cases dir

def add (tree : FileTree Name Leaf) (thing : Node Leaf) : List Name → Option (FileTree Name Leaf)
  | [] => none
  | name :: up =>
    if fits : tree.isDir up ∧ (tree.node (name :: up)).isNone then
      some (tree.put name up thing (isDir_iff.1 fits.1) (Option.isNone_iff_eq_none.1 fits.2))
    else none

def unlink (tree : FileTree Name Leaf) : List Name → Option (FileTree Name Leaf)
  | [] => none
  | name :: up =>
    match here : tree.leaf (name :: up) with
    | some _ => some (tree.take name up (leaf_bare here))
    | none => none

def rmdir (tree : FileTree Name Leaf) : List Name → Option (FileTree Name Leaf)
  | [] => none
  | name :: up =>
    if fits : tree.isDir (name :: up) ∧ tree.bare (name :: up) then
      some (tree.take name up (bare_iff.1 fits.2))
    else none

theorem add_eq_some (added : tree.add thing place = some after) :
    tree.node place = none ∧ ∀ q, after.node q = if q = place then some thing else tree.node q := by
  cases place with
  | nil => cases added
  | cons name up =>
    rw [add] at added
    split at added
    next fits =>
      cases added
      exact ⟨Option.isNone_iff_eq_none.1 fits.2, node_put _ _⟩
    · cases added

theorem add_isSome (room : tree.node up = some .dir) (free : tree.node (name :: up) = none) :
    (tree.add thing (name :: up)).isSome := by
  simp [add, isDir_iff.2 room, free]

theorem unlink_eq_some (taken : tree.unlink place = some after) :
    (tree.leaf place).isSome ∧ ∀ q, after.node q = if q = place then none else tree.node q := by
  cases place with
  | nil => cases taken
  | cons name up =>
    rw [unlink] at taken
    split at taken
    next here =>
      cases taken
      exact ⟨by simp [here], node_take (leaf_bare here)⟩
    · cases taken

theorem unlink_eq_none : tree.unlink place = none ↔ tree.leaf place = none := by
  cases place with
  | nil => simp [unlink, leaf, node, Node.held]
  | cons name up =>
    rw [unlink]
    split
    next here => simp [here]
    next absent => simp [absent]

theorem rmdir_eq_some (taken : tree.rmdir place = some after) :
    tree.node place = some .dir ∧ (∀ child, tree.node (child :: place) = none) ∧
      ∀ q, after.node q = if q = place then none else tree.node q := by
  cases place with
  | nil => cases taken
  | cons name up =>
    rw [rmdir] at taken
    split at taken
    next fits =>
      cases taken
      exact ⟨isDir_iff.1 fits.1, bare_iff.1 fits.2, node_take (bare_iff.1 fits.2)⟩
    · cases taken

theorem rmdir_eq_none (kept : tree.rmdir (name :: up) = none) (here : tree.node (name :: up) = some .dir) :
    ∃ child, tree.node (child :: name :: up) ≠ none := by
  rw [rmdir] at kept
  split at kept
  · cases kept
  rename_i refused
  by_contra nothing
  exact refused ⟨isDir_iff.2 here, bare_iff.2 (by simpa using nothing)⟩

/-! What the calls do to the leaves alone. -/

theorem leaf_add_leaf (added : tree.add (.leaf held) place = some after) :
    after.leaf = Function.update tree.leaf place (some held) := by
  obtain ⟨-, nodes⟩ := add_eq_some added
  funext q
  by_cases same : q = place
  · simp [leaf, nodes, same, Node.held]
  · simp [leaf, nodes, same]

theorem leaf_unlink (taken : tree.unlink place = some after) : after.leaf = Function.update tree.leaf place none := by
  obtain ⟨-, nodes⟩ := unlink_eq_some taken
  funext q
  by_cases same : q = place <;> simp [leaf, nodes, same]

theorem leaf_rmdir (taken : tree.rmdir place = some after) : after.leaf = tree.leaf := by
  obtain ⟨dir, -, nodes⟩ := rmdir_eq_some taken
  funext q
  by_cases same : q = place
  · simp [leaf, nodes, same, dir, Node.held]
  · simp [leaf, nodes, same]

/-! ### Walks that follow no link -/

/-- Open a directory name by name from the root. With `create`, what is missing is made; a directory is
made only where nothing is, and then nothing stands in the way further down, so a walk that is stopped
has made none. -/
def openDir (create : Bool) (tree : FileTree Name Leaf) : List Name → Option (FileTree Name Leaf)
  | [] => some tree
  | name :: up =>
    (tree.openDir create up).bind fun opened =>
      match opened.node (name :: up) with
      | some .dir => some opened
      | some (.leaf _) => none
      | none => if create then opened.add .dir (name :: up) else none

structure Opened (tree after : FileTree Name Leaf) (place : List Name) : Prop where
  here : after.node place = some .dir
  keeps : ∀ q, tree.node q ≠ none → after.node q = tree.node q
  made : ∀ q, tree.node q = none → after.node q ≠ none → after.node q = some .dir ∧ q <:+ place

theorem Opened.leaf (opened : Opened tree after place) : after.leaf = tree.leaf := by
  funext q
  unfold FileTree.leaf
  by_cases absent : tree.node q = none
  · by_cases present : after.node q = none
    · rw [absent, present]
    · rw [(opened.made q absent present).1, absent]
      rfl
  · rw [opened.keeps q absent]

variable {create : Bool}

theorem openDir_eq_some (opening : tree.openDir create place = some after) : Opened tree after place := by
  induction place generalizing after with
  | nil =>
    cases opening
    exact ⟨rfl, fun _ _ => rfl, fun q absent present => (present absent).elim⟩
  | cons name up ih =>
    obtain ⟨opened, above, opening⟩ := Option.bind_eq_some_iff.1 opening
    have above := ih above
    have higher : ∀ q, q <:+ up → q <:+ name :: up := fun q below => below.trans (suffix_cons name up)
    split at opening
    next dir =>
      cases opening
      exact ⟨dir, above.keeps, fun q absent present =>
        ⟨(above.made q absent present).1, higher q (above.made q absent present).2⟩⟩
    · cases opening
    next free =>
      split at opening
      · obtain ⟨-, nodes⟩ := add_eq_some opening
        refine ⟨by simp [nodes], fun q present => ?_, fun q absent present => ?_⟩
        · have kept := above.keeps q present
          by_cases same : q = name :: up
          · rw [same] at kept present
            rw [free] at kept
            exact (present kept.symm).elim
          · simp [nodes, same, kept]
        · by_cases same : q = name :: up
          · simp [nodes, same]
          · rw [nodes, if_neg same] at present ⊢
            exact ⟨(above.made q absent present).1, higher q (above.made q absent present).2⟩
      · cases opening

theorem openDir_of_node (create : Bool) (here : tree.node place = some .dir) :
    tree.openDir create place = some tree := by
  induction place with
  | nil => rfl
  | cons name up ih =>
    have above := ih (node_up_of_eq here)
    simp [openDir, above, here]

theorem openDir_false (opening : tree.openDir false place = some after) : after = tree := by
  induction place generalizing after with
  | nil => exact (Option.some.inj opening).symm
  | cons name up ih =>
    obtain ⟨opened, above, opening⟩ := Option.bind_eq_some_iff.1 opening
    split at opening
    · exact (Option.some.inj opening).symm.trans (ih above)
    · cases opening
    · simp at opening

theorem openDir_isSome (clear : ∀ above, above <:+ place → tree.leaf above = none) :
    (tree.openDir true place).isSome := by
  induction place with
  | nil => rfl
  | cons name up ih =>
    obtain ⟨opened, above⟩ := Option.isSome_iff_exists.1 (ih fun q below => clear q (below.trans (suffix_cons name up)))
    have same := (openDir_eq_some above).leaf
    rw [openDir, above, Option.bind_some]
    split
    · rfl
    next held here =>
      have leaf := clear (name :: up) (suffix_refl _)
      rw [← same, leaf_eq_some.2 here] at leaf
      cases leaf
    next free =>
      exact add_isSome (openDir_eq_some above).here free

/-! ### Directories that hold nothing -/

/-- Remove the directory and those above it, as long as they are empty and deeper than `floor`. -/
def sweep (floor : Nat) (tree : FileTree Name Leaf) : List Name → FileTree Name Leaf
  | [] => tree
  | name :: up =>
    if floor < (name :: up).length then
      match tree.rmdir (name :: up) with
      | some after => after.sweep floor up
      | none => tree
    else tree

theorem leaf_sweep (floor : Nat) (tree : FileTree Name Leaf) (place : List Name) :
    (tree.sweep floor place).leaf = tree.leaf := by
  induction place generalizing tree with
  | nil => rfl
  | cons name up ih =>
    rw [sweep]
    split
    · split
      next after taken => rw [ih, leaf_rmdir taken]
      · rfl
    · rfl

theorem node_sweep (kept : q <:+ place → q.length ≤ floor) : (tree.sweep floor place).node q = tree.node q := by
  induction place generalizing tree with
  | nil => rfl
  | cons name up ih =>
    rw [sweep]
    split
    next deep =>
      split
      next after taken =>
        have other : q ≠ name :: up := by
          rintro rfl
          exact not_le.2 deep (kept (suffix_refl _))
        rw [ih fun higher => kept (higher.trans (suffix_cons name up)), (rmdir_eq_some taken).2.2, if_neg other]
      · rfl
    · rfl

def Tidy (part : List Name → Prop) (tree : FileTree Name Leaf) : Prop :=
  ∀ q, part q → tree.node q = some .dir → ∃ p, (tree.leaf p).isSome ∧ q <:+ p

variable {part : List Name → Prop}

omit [DecidableEq Name] in
theorem part_of_suffix (below : ∀ child q, part q → part (child :: q)) (inside : part q)
    (higher : q <:+ place) : part place := by
  obtain ⟨more, rfl⟩ := higher
  induction more with
  | nil => exact inside
  | cons first more ih => exact below first _ ih

theorem Tidy.sweep (deep : ∀ q, part q → floor < q.length)
    (below : ∀ child q, part q → part (child :: q)) (here : tree.node place = some .dir)
    (rest : ∀ q, part q → ¬ q <:+ place → tree.node q = some .dir → ∃ p, (tree.leaf p).isSome ∧ q <:+ p) :
    Tidy part (tree.sweep floor place) := by
  induction place generalizing tree with
  | nil =>
    intro q inside dir
    by_cases root : q <:+ []
    · have := deep q inside
      simp [suffix_nil.1 root] at this
    · exact rest q inside root dir
  | cons name up ih =>
    rw [FileTree.sweep]
    split
    · split
      next after taken =>
        obtain ⟨-, -, nodes⟩ := rmdir_eq_some taken
        apply ih
        · rw [nodes, if_neg ne_cons_self]
          exact node_up_of_eq here
        · intro q inside off dir
          rw [nodes] at dir
          split at dir
          · cases dir
          rename_i other
          rw [leaf_rmdir taken]
          refine rest q inside (fun higher => ?_) dir
          exact (suffix_cons_iff.1 higher).elim other off
      rename_i kept
      -- the directory stays because something lies in it, and that is, or holds, a leaf
      obtain ⟨child, present⟩ := rmdir_eq_none kept here
      intro q inside dir
      by_cases higher : q <:+ name :: up
      · have deeper := part_of_suffix below inside higher
        obtain ⟨p, held, lower⟩ : ∃ p, (tree.leaf p).isSome ∧ child :: name :: up <:+ p := by
          cases thing : tree.node (child :: name :: up) with
          | none => exact (present thing).elim
          | some thing' =>
            cases thing' with
            | dir =>
              refine rest _ (below child _ deeper) (fun short => ?_) thing
              exact Nat.not_succ_le_self _ short.length_le
            | leaf held => exact ⟨_, by simp [leaf_eq_some.2 thing], suffix_refl _⟩
        exact ⟨p, held, higher.trans ((suffix_cons child _).trans lower)⟩
      · exact rest q inside higher dir
    next shallow =>
      intro q inside dir
      refine rest q inside (fun higher => ?_) dir
      have := deep q inside
      have := higher.length_le
      omega

/-! ### Paths that lead through links -/

end FileTree

inductive PathStep (Name : Type) where
  | down (name : Name)
  | back
deriving DecidableEq, Repr

namespace FileTree

variable {Name Leaf : Type} [DecidableEq Name]

section
-- where a leaf that is a link leads: whether from the root, and along which steps
variable (target : Leaf → Option (Bool × List (PathStep Name)))

def walkWith (tree : FileTree Name Leaf) (follow : List Name → List (PathStep Name) → Option (List Name)) :
    List Name → List (PathStep Name) → Option (List Name)
  | here, [] => some here
  | here, .back :: rest => tree.walkWith follow here.tail rest
  | here, .down name :: rest =>
    match tree.node (name :: here) with
    | some .dir => tree.walkWith follow (name :: here) rest
    | some (.leaf held) =>
      match target held with
      | some (fromRoot, steps) => follow (if fromRoot then [] else here) (steps ++ rest)
      | none => none
    | none => none

/-- The directory some steps lead to, through at most `links` links. -/
def walk (tree : FileTree Name Leaf) : Nat → List Name → List (PathStep Name) → Option (List Name)
  | 0 => tree.walkWith target fun _ _ => none
  | links + 1 => tree.walkWith target (tree.walk links)

def locate (tree : FileTree Name Leaf) (links : Nat) : List Name → Option (List Name)
  | [] => some []
  | name :: up => (tree.walk target links [] (up.reverse.map .down)).map (name :: ·)

def lstat (tree : FileTree Name Leaf) (links : Nat) (place : List Name) : Option (Node Leaf) :=
  (tree.locate target links place).bind tree.node

end

variable {target : Leaf → Option (Bool × List (PathStep Name))} {tree : FileTree Name Leaf} {name : Name}
  {place up : List Name} {thing : Node Leaf}

variable {follow : List Name → List (PathStep Name) → Option (List Name)}

theorem walkWith_dirs {here names : List Name} (dir : tree.node (names.reverse ++ here) = some .dir) :
    tree.walkWith target follow here (names.map .down) = some (names.reverse ++ here) := by
  induction names generalizing here with
  | nil => rfl
  | cons name rest ih =>
    rw [reverse_cons, append_assoc, singleton_append] at dir ⊢
    have first : tree.node (name :: here) = some .dir := by
      by_cases last : name :: here = rest.reverse ++ name :: here
      · rwa [last]
      · exact node_above (by simp [dir]) (suffix_append _ _) last
    rw [map_cons, walkWith, first]
    exact ih dir

theorem locate_of_dir (links : Nat) (dir : tree.node up = some .dir) :
    tree.locate target links (name :: up) = some (name :: up) := by
  have whole : tree.node (up.reverse.reverse ++ []) = some .dir := by simpa using dir
  have walked : tree.walk target links [] (up.reverse.map .down) = some (up.reverse.reverse ++ []) := by
    cases links with
    | zero => exact walkWith_dirs whole
    | succ links => exact walkWith_dirs whole
  rw [locate, walked, Option.map_some, append_nil, reverse_reverse]

theorem lstat_of_node (links : Nat) (here : tree.node place = some thing) :
    tree.lstat target links place = some thing := by
  cases place with
  | nil => exact here
  | cons name up => simp [lstat, locate_of_dir links (node_up_of_eq here), here]

theorem walkWith_linkFree {here names there : List Name}
    (free : ∀ q, q <:+ names.reverse ++ here → ∀ held, tree.leaf q = some held → target held = none)
    (found : tree.walkWith target follow here (names.map .down) = some there) : there = names.reverse ++ here := by
  induction names generalizing here with
  | nil => exact (Option.some.inj found).symm
  | cons name rest ih =>
    rw [reverse_cons, append_assoc] at free ⊢
    rw [map_cons, walkWith] at found
    split at found
    · exact ih free found
    next held here' =>
      rw [free _ (suffix_append _ _) held (leaf_eq_some.2 here')] at found
      cases found
    · cases found

theorem locate_linkFree (links : Nat) {there : List Name}
    (free : ∀ q, q <:+ up → ∀ held, tree.leaf q = some held → target held = none)
    (found : tree.locate target links (name :: up) = some there) : there = name :: up := by
  obtain ⟨dir, walked, rfl⟩ := Option.map_eq_some_iff.1 found
  have free' : ∀ q, q <:+ up.reverse.reverse ++ [] → ∀ held, tree.leaf q = some held → target held = none := by
    simpa using free
  cases links with
  | zero | succ links => simpa using walkWith_linkFree free' walked

end FileTree

/-!
## Changes remembered

A tree that remembers at which places a leaf was made, changed or removed.
-/

structure Tracked (Name Leaf : Type) [DecidableEq Name] where
  tree : FileTree Name Leaf
  touched : List (List Name)

namespace Tracked

variable {Name Leaf : Type} [DecidableEq Name]

def leaf (disk : Tracked Name Leaf) (place : List Name) : Option Leaf := disk.tree.leaf place

def makeDirs (disk : Tracked Name Leaf) (place : List Name) : Option (Tracked Name Leaf) :=
  (disk.tree.openDir true place).map fun tree => { disk with tree }

def write (disk : Tracked Name Leaf) (place : List Name) (held : Leaf) : Option (Tracked Name Leaf) :=
  (((disk.tree.unlink place).getD disk.tree).add (.leaf held) place).map fun tree =>
    { tree, touched := place :: disk.touched }

def remove (disk : Tracked Name Leaf) (place : List Name) : Tracked Name Leaf :=
  match disk.tree.unlink place with
  | some tree => { tree, touched := place :: disk.touched }
  | none => disk

structure Within (area : Set (List Name)) (before after : Tracked Name Leaf) : Prop where
  grown : ∀ q ∈ before.touched, q ∈ after.touched
  touched : ∀ q ∈ after.touched, q ∈ before.touched ∨ q ∈ area
  kept : ∀ q ∉ area, after.leaf q = before.leaf q

variable {area : Set (List Name)} {disk before middle after : Tracked Name Leaf} {place : List Name} {held : Leaf}

theorem Within.refl (area : Set (List Name)) (disk : Tracked Name Leaf) : Within area disk disk :=
  ⟨fun _ member => member, fun _ member => .inl member, fun _ _ => rfl⟩

theorem Within.trans (first : Within area before middle) (second : Within area middle after) :
    Within area before after := by
  refine ⟨fun q member => second.grown q (first.grown q member), fun q member => ?_,
    fun q outside => (second.kept q outside).trans (first.kept q outside)⟩
  obtain earlier | inside := second.touched q member
  · exact first.touched q earlier
  · exact .inr inside

theorem leaf_makeDirs (made : disk.makeDirs place = some after) : after.leaf = disk.leaf := by
  obtain ⟨tree, opened, rfl⟩ := Option.map_eq_some_iff.1 made
  exact (FileTree.openDir_eq_some opened).leaf

theorem leaf_write (written : disk.write place held = some after) :
    after.leaf = Function.update disk.leaf place (some held) := by
  obtain ⟨tree, added, rfl⟩ := Option.map_eq_some_iff.1 written
  refine (FileTree.leaf_add_leaf added).trans ?_
  cases taken : disk.tree.unlink place with
  | none => rfl
  | some cleared =>
    rw [Option.getD_some, FileTree.leaf_unlink taken, Function.update_idem]
    rfl

theorem leaf_remove (disk : Tracked Name Leaf) (place : List Name) :
    (disk.remove place).leaf = Function.update disk.leaf place none := by
  unfold remove
  split
  next tree taken => exact FileTree.leaf_unlink taken
  rename_i absent
  have none : disk.leaf place = none := FileTree.unlink_eq_none.1 absent
  rw [← none, Function.update_eq_self]

/-! The directories stay as they are when a leaf comes or goes. -/

theorem dir_remove (disk : Tracked Name Leaf) (place q : List Name) :
    (disk.remove place).tree.node q = some .dir ↔ disk.tree.node q = some .dir := by
  unfold remove
  split
  next tree taken =>
    obtain ⟨held, nodes⟩ := FileTree.unlink_eq_some taken
    obtain ⟨thing, held⟩ := Option.isSome_iff_exists.1 held
    change tree.node q = some .dir ↔ _
    rw [nodes]
    split
    next same => simp [same, FileTree.leaf_eq_some.1 held]
    · rfl
  · rfl

theorem dir_write (written : disk.write place held = some after) (q : List Name) :
    after.tree.node q = some .dir ↔ disk.tree.node q = some .dir := by
  obtain ⟨tree, added, rfl⟩ := Option.map_eq_some_iff.1 written
  obtain ⟨free, nodes⟩ := FileTree.add_eq_some added
  have cleared (q : List Name) :
      ((disk.tree.unlink place).getD disk.tree).node q = some .dir ↔ disk.tree.node q = some .dir := by
    have removed := dir_remove disk place q
    unfold remove at removed
    cases taken : disk.tree.unlink place with
    | none => rfl
    | some tree =>
      rw [taken] at removed
      exact removed
  change tree.node q = some .dir ↔ _
  rw [nodes, ← cleared]
  split
  next same => simp [same, free]
  · rfl

theorem makeDirs_of_dir (disk : Tracked Name Leaf) (here : disk.tree.node place = some .dir) :
    disk.makeDirs place = some disk := by
  rw [makeDirs, FileTree.openDir_of_node true here]
  rfl

theorem makeDirs_within (area : Set (List Name)) (made : disk.makeDirs place = some after) :
    Within area disk after := by
  have leaves := leaf_makeDirs made
  obtain ⟨tree, -, rfl⟩ := Option.map_eq_some_iff.1 made
  exact ⟨fun _ member => member, fun _ member => .inl member, fun q _ => congrFun leaves q⟩

section
variable (inside : place ∈ area)
include inside

theorem touched_cons {tree : FileTree Name Leaf} (same : ∀ q, q ≠ place → tree.leaf q = disk.leaf q) :
    Within area disk { tree, touched := place :: disk.touched } := by
  refine ⟨fun q member => List.mem_cons_of_mem place member, fun q member => ?_, fun q outside => same q ?_⟩
  · obtain rfl | earlier := List.mem_cons.1 member
    · exact .inr inside
    · exact .inl earlier
  · rintro rfl
    exact outside inside

theorem write_within (written : disk.write place held = some after) : Within area disk after := by
  have leaves := leaf_write written
  obtain ⟨tree, -, rfl⟩ := Option.map_eq_some_iff.1 written
  exact touched_cons inside fun q other => (congrFun leaves q).trans (Function.update_of_ne other _ _)

theorem remove_within : Within area disk (disk.remove place) := by
  unfold remove
  split
  next tree taken =>
    apply touched_cons inside
    intro q other
    exact (congrFun (FileTree.leaf_unlink taken) q).trans (Function.update_of_ne other _ _)
  · exact Within.refl area disk

end

theorem touched_of_write (written : disk.write place held = some after) : place ∈ after.touched := by
  obtain ⟨tree, -, rfl⟩ := Option.map_eq_some_iff.1 written
  exact List.mem_cons_self

end Tracked

end BashOs.Lib
