import BashOs.Lib.CString
import BashOs.Git.WorkTree.Index

/-!
Building tree objects from entries of the index, and that reading them gives the entries back.
-/

namespace BashOs.Git.WorkTree
open BashOs.Lib List Option

structure TreeChild extends TreeItem where
  isDir : Bool
deriving DecidableEq

def TreeChild.byteAt (child : TreeChild) (i : Nat) : UInt8 :=
  child.name.bytes.getD i (if child.isDir then 0x2f else 0)

def childLE (a b : TreeChild) : Prop :=
  let shared := min a.name.bytes.length b.name.bytes.length
  a.name.bytes.take shared < b.name.bytes.take shared ∨
    a.name.bytes.take shared = b.name.bytes.take shared ∧
      (a.name.bytes.length = b.name.bytes.length ∨ a.byteAt shared ≤ b.byteAt shared)

instance : DecidableRel childLE := fun _ _ => inferInstanceAs (Decidable (_ ∨ _))

def TreeItem.encode (item : TreeItem) : Bytes := item.mode ++ 0x20 :: (item.name.bytes ++ 0 :: item.sha.bytes)

def treeBody (children : List TreeChild) : Bytes :=
  (children.insertionSort childLE).flatMap fun child => child.toTreeItem.encode

/-- `%o`, in a buffer of eight bytes -/
def octalText (mode : UInt32) : Bytes := (ascii (String.ofList (Nat.toDigits 8 mode.toNat))).take 7

/-- The components of a path below a directory, its last first as in the path; none for what is not below it. -/
def below (dir names : List FileName) : List FileName :=
  if dir <:+ names then names.take (names.length - dir.length) else []

variable {dir more : List FileName} {name : FileName} {items : List TreeItem} {out : Index}

theorem below_fine {path : IndexPath} (parts : (below dir path.names).reverse = name :: more) :
    name.isDotGit = false := by
  have member : name ∈ below dir path.names := by
    rw [← mem_reverse, parts]
    exact .head _
  unfold below at member
  split at member
  · exact path.ok.2 name (mem_of_mem_take member)
  · cases member

def dirText (dir : List FileName) : Bytes := List.intercalate [0x2f] (dir.reverse.map FileName.bytes)

section
variable (host : Host) (levels : Nat)

/-- `bgit_write_tree_at`: the entries of one directory, the trees below it, and the entries left over. Paths are
compared by components; no component has a slash, so their texts would say the same. A turn takes an entry or goes
down a directory, and `levels` is how many directories down the stack has room for. -/
def buildLevel : Nat → List FileName → Index → Option (List TreeChild × List Bytes × Index)
  | 0, _, _ => none
  | _ + 1, _, [] => some ([], [], [])
  | turns + 1, dir, entry :: rest =>
    match parts : (below dir entry.path.names).reverse with
    | [] => some ([], [], entry :: rest)
    | [name] =>
      (buildLevel turns dir rest).map fun (children, bodies, left) =>
        ({ mode := octalText entry.mode, name, sha := entry.sha, fine := below_fine parts, isDir := false } :: children,
          bodies, left)
    | name :: _ :: _ =>
      if 4096 ≤ (dirText (name :: dir)).length + 1 ∨ levels < (name :: dir).length then none
      else
        (buildLevel turns (name :: dir) (entry :: rest)).bind fun (inner, written, left) =>
          (objectId host .tree (treeBody inner)).bind fun id =>
            (buildLevel turns dir left).map fun (children, bodies, left) =>
              ({ mode := ascii "40000", name, sha := id, fine := below_fine parts, isDir := true } :: children,
                written ++ treeBody inner :: bodies, left)

/-- The id of the tree that `bgit_write_tree` makes, and the trees in the order they are written. A path stays below
4096 bytes, so the turns are enough. -/
def buildTree (entries : Index) : Option (ObjectId × List Bytes) :=
  if entries.any fun entry => entry.stage ≠ 0 then none
  else
    (buildLevel host levels (entries.length + 4097) [] entries).bind fun (children, bodies, _) =>
      (objectId host .tree (treeBody children)).map fun id => (id, bodies ++ [treeBody children])

def treeObject (body : Bytes) : Option Object :=
  if fits : body.length < addressSpace then some ⟨.tree, body, fits⟩ else none

/-- `bgit_write_tree`. Nothing is read between one tree and the next. -/
def writeTree (read : Objects) (entries : Index) : Option (ObjectId × Objects) := do
  let (id, bodies) ← buildTree host levels entries
  let objects ← bodies.mapM treeObject
  let after ← ContentStore.putAll (objectName host) read objects
  some (id, after)

end

/-! ## Reading a tree's bytes -/

def Digits (mode : Bytes) : Prop := mode.length < 16 ∧ ∀ b ∈ mode, 0x30 ≤ b ∧ b ≤ 0x37

theorem Digits.absent {mode : Bytes} (digits : Digits mode) {b : UInt8} (other : b < 0x30) : b ∉ mode := by
  intro inside
  have low := (digits.2 b inside).1
  exact absurd other (UInt8.not_lt.2 low)

theorem treeItem_encode (item : TreeItem) (rest : Bytes) (digits : Digits item.mode) :
    treeItem (item.encode ++ rest) = some (item, rest) := by
  have whole : item.encode ++ rest = item.mode ++ 0x20 :: (item.name.bytes ++ 0 :: (item.sha.bytes ++ rest)) := by
    simp [TreeItem.encode]
  obtain ⟨mode, named⟩ := takeWhile_append_stop item.mode (item.name.bytes ++ 0 :: (item.sha.bytes ++ rest))
    (digits.absent (by decide) : 0x20 ∉ item.mode)
  obtain ⟨name, after⟩ := takeWhile_append_stop item.name.bytes (item.sha.bytes ++ rest) item.name.ok.2.1
  have plain : item.mode.takeWhile (fun b => decide (b ≠ 0)) = item.mode :=
    takeWhile_eq_self_iff.2 fun b inside => decide_eq_true fun zero =>
      digits.absent (b := 0) (by decide) (zero ▸ inside)
  have room : 20 ≤ (item.sha.bytes ++ rest).length := by simp [item.sha.width]
  have width := item.sha.width
  rw [whole]
  simp only [treeItem, mode, named, if_neg (not_le.2 digits.1), name, after, FileName.ofBytes_bytes, bind_some,
    dif_pos item.fine, plain]
  simp [← width]

theorem treeItems_encode {rounds : Nat} (digits : ∀ item ∈ items, Digits item.mode) (enough : items.length ≤ rounds) :
    treeItems rounds (items.flatMap TreeItem.encode) = some items := by
  induction items generalizing rounds with
  | nil => cases rounds <;> rfl
  | cons item rest ih =>
    obtain ⟨rounds, rfl⟩ := Nat.exists_eq_succ_of_ne_zero (ne_of_gt (lt_of_lt_of_le (Nat.succ_pos _) enough))
    have first := treeItem_encode item (rest.flatMap TreeItem.encode) (digits item (.head _))
    have more := ih (fun item inside => digits item (.tail _ inside)) (Nat.le_of_succ_le_succ enough)
    rw [flatMap_cons]
    cases bytes : item.encode ++ rest.flatMap TreeItem.encode with
    | nil => simp [TreeItem.encode] at bytes
    | cons b tail =>
      rw [bytes] at first
      simp [treeItems, first, more]

theorem length_le_encode (items : List TreeItem) : items.length ≤ (items.flatMap TreeItem.encode).length := by
  induction items with
  | nil => exact le_rfl
  | cons item rest ih =>
    rw [flatMap_cons, length_append, length_cons, TreeItem.encode, length_append, length_cons]
    omega

/-! ## Reading a tree that was built -/

def walkItem (read : Objects) (depth : Nat) (dir : Option IndexPath) (item : TreeItem) : Option Index :=
  let path := IndexPath.child dir item.name item.fine
  if 4096 ≤ path.text.length then none
  else if item.isTree then
    if 4096 ≤ path.text.length + 1 then none else treeWalk read depth (some path) item.sha
  else some [item.entry path]

def IndexEntry.listed (entry : IndexEntry) : IndexEntry :=
  { entry with stage := 0, size := 0, mtime := 0, ctime := 0, ino := 0 }

def FileMode (mode : UInt32) : Prop := mode = 0o100644 ∨ mode = 0o100755 ∨ mode = 0o120000

def StandardMode (mode : UInt32) : Prop := FileMode mode ∨ mode = 0o160000

theorem octalText_standard {mode : UInt32} (file : StandardMode mode) : Digits (octalText mode) ∧
    UInt32.ofNat (octalValue (octalText mode)) = mode ∧ octalText mode ≠ ascii "40000" ∧
      octalText mode ≠ ascii "040000" := by
  unfold Digits
  obtain (rfl | rfl | rfl) | rfl := file <;> decide +kernel

theorem digits_tree : Digits (ascii "40000") := by
  unfold Digits
  decide +kernel

theorem mapM_of_forall {α β : Type} {f : α → Option (List β)} {xs : List α} (all : ∀ x ∈ xs, (f x).isSome) :
    xs.mapM f = some (xs.map fun x => (f x).getD []) := by
  induction xs with
  | nil => rfl
  | cons x xs ih =>
    obtain ⟨y, found⟩ := isSome_iff_exists.1 (all x (.head _))
    simp [found, ih fun x inside => all x (.tail _ inside)]

theorem below_eq {names : List FileName} (parts : below dir names = more) (some : more ≠ []) : names = more ++ dir := by
  unfold below at parts
  split at parts
  next inside =>
    obtain ⟨front, rfl⟩ := inside
    simp at parts
    rw [parts]
  · exact (some parts.symm).elim

theorem IndexPath.child_names {dirPath : Option IndexPath} (fine : name.isDotGit = false)
    (here : (dirPath.map IndexPath.names).getD [] = dir) : (IndexPath.child dirPath name fine).names = name :: dir := by
  rw [← here]
  rfl

theorem IndexPath.eq_of_names {a b : IndexPath} (same : a.names = b.names) : a = b := by
  cases a
  cases same
  rfl

section
variable {host : Host} {read : Objects} {levels turns depth : Nat} {dir : List FileName} {dirPath : Option IndexPath}
  {entries left : Index} {children : List TreeChild} {bodies : List Bytes} {id : ObjectId} {object : Object}

theorem treeWalk_body (found : read id = some object) (tree : object.type = .tree)
    (body : object.content = treeBody children)
    (each : ∀ child ∈ children, Digits child.mode ∧ (walkItem read depth dirPath child.toTreeItem).isSome) :
    ∃ out, treeWalk read (depth + 1) dirPath id = some out ∧
      out.Perm (children.flatMap fun child => (walkItem read depth dirPath child.toTreeItem).getD []) := by
  have order := perm_insertionSort childLE children
  have bytes : treeBody children = ((children.insertionSort childLE).map TreeChild.toTreeItem).flatMap
      TreeItem.encode := by
    rw [treeBody, flatMap_map]
  have member : ∀ item ∈ (children.insertionSort childLE).map TreeChild.toTreeItem,
      ∃ child ∈ children, child.toTreeItem = item := by
    simp
  have long : ((children.insertionSort childLE).map TreeChild.toTreeItem).length ≤ object.content.length := by
    rw [body, bytes]
    exact length_le_encode _
  have listed : treeItems object.content.length object.content =
      some ((children.insertionSort childLE).map TreeChild.toTreeItem) := by
    have whole := treeItems_encode (fun item inside => ?_) long
    · rwa [← bytes, ← body] at whole
    · obtain ⟨child, among, rfl⟩ := member item inside
      exact (each child among).1
  rw [treeWalk, found, bind_some, if_neg (by simp [tree]), listed]
  change ∃ out, (mapM (walkItem read depth dirPath) _).map flatten = some out ∧ _
  rw [mapM_of_forall]
  · refine ⟨_, rfl, ?_⟩
    rw [← flatMap_def, flatMap_map]
    exact order.flatMap_right _
  · intro item inside
    obtain ⟨child, among, rfl⟩ := member item inside
    exact (each child among).2

section
variable (fine : name.isDotGit = false) (here : (dirPath.map IndexPath.names).getD [] = dir)
include fine here

theorem walkItem_file {entry : IndexEntry} (names : entry.path.names = name :: dir)
    (file : StandardMode entry.mode) (short : entry.path.text.length < 4096) :
    walkItem read depth dirPath ⟨octalText entry.mode, name, entry.sha, fine⟩ = some [entry.listed] := by
  have same : IndexPath.child dirPath name fine = entry.path :=
    IndexPath.eq_of_names ((IndexPath.child_names fine here).trans names.symm)
  obtain ⟨-, value, five, six⟩ := octalText_standard file
  have plain : (⟨octalText entry.mode, name, entry.sha, fine⟩ : TreeItem).isTree = false := by
    simp [TreeItem.isTree, five, six]
  simp only [walkItem, same, if_neg (not_le.2 short), plain, TreeItem.entry, value]
  rfl

theorem walkItem_dir (short : (dirText (name :: dir)).length + 1 < 4096)
    (walked : treeWalk read depth (some (IndexPath.child dirPath name fine)) id = some out) :
    walkItem read depth dirPath ⟨ascii "40000", name, id, fine⟩ = some out := by
  have text : (IndexPath.child dirPath name fine).text = dirText (name :: dir) := by
    rw [IndexPath.text, IndexPath.child_names fine here]
    rfl
  have tree : (⟨ascii "40000", name, id, fine⟩ : TreeItem).isTree = true := by simp [TreeItem.isTree]
  simp only [walkItem, text, if_neg (not_le.2 (Nat.lt_of_succ_lt short)), tree, if_true,
    if_neg (not_le.2 short), walked]

end

def Stored (host : Host) (read : Objects) (bodies : List Bytes) : Prop :=
  ∀ body ∈ bodies, ∃ id object, objectId host .tree body = some id ∧ read id = some object ∧ object.type = .tree ∧
    object.content = body

inductive Builds (host : Host) : List FileName → Index → List TreeChild → List Bytes → Index → Prop
  | stop {dir : List FileName} {entries : Index} (out : ∀ entry ∈ entries.head?, below dir entry.path.names = []) :
      Builds host dir entries [] [] entries
  | file {dir : List FileName} {entry : IndexEntry} {rest left : Index} {name : FileName} {children : List TreeChild}
      {bodies : List Bytes} (parts : (below dir entry.path.names).reverse = [name])
      (run : Builds host dir rest children bodies left) :
      Builds host dir (entry :: rest)
        ({ mode := octalText entry.mode, name, sha := entry.sha, fine := below_fine parts, isDir := false } ::
          children) bodies left
  | tree {dir : List FileName} {entry : IndexEntry} {rest between left : Index} {name second : FileName}
      {more : List FileName} {inner children : List TreeChild} {written bodies : List Bytes} {id : ObjectId}
      (parts : (below dir entry.path.names).reverse = name :: second :: more)
      (room : (dirText (name :: dir)).length + 1 < 4096)
        (down : Builds host (name :: dir) (entry :: rest) inner written between)
      (named : objectId host .tree (treeBody inner) = some id) (run : Builds host dir between children bodies left) :
      Builds host dir (entry :: rest)
        ({ mode := ascii "40000", name, sha := id, fine := below_fine parts, isDir := true } :: children)
        (written ++ treeBody inner :: bodies) left

theorem builds_of_buildLevel (built : buildLevel host levels turns dir entries = some (children, bodies, left)) :
    Builds host dir entries children bodies left := by
  induction turns generalizing dir entries children bodies left with
  | zero => cases built
  | succ turns ih =>
    cases entries with
    | nil =>
      cases built
      exact .stop (by simp)
    | cons entry rest =>
      rw [buildLevel] at built
      split at built
      next parts =>
        cases built
        exact .stop (by simpa using parts)
      next parts =>
        obtain ⟨⟨others, bodies', left'⟩, run, same⟩ := map_eq_some_iff.1 built
        cases same
        exact .file parts (ih run)
      next parts =>
        split at built
        · cases built
        rename_i room
        simp only [bind_eq_some_iff] at built
        obtain ⟨⟨inner, written, between⟩, down, id, named, built⟩ := built
        obtain ⟨⟨others, bodies', left'⟩, run, same⟩ := map_eq_some_iff.1 built
        cases same
        exact .tree parts (not_le.1 (not_or.1 room).1) (ih down) named (ih run)

section
variable (builds : Builds host dir entries children bodies left)
include builds

theorem builds_stops : ∀ entry ∈ left.head?, below dir entry.path.names = [] := by
  induction builds with
  | stop out => exact out
  | file _ _ ih => exact ih
  | tree _ _ _ _ _ _ ih => exact ih

theorem builds_reads (stored : Stored host read bodies) (here : (dirPath.map IndexPath.names).getD [] = dir)
    (files : ∀ entry ∈ entries, StandardMode entry.mode) (short : ∀ entry ∈ entries, entry.path.text.length < 4096)
    (deep : ∀ entry ∈ entries, entry.path.names.length ≤ dir.length + depth + 1) :
    ∃ used, entries = used ++ left ∧
      (∀ child ∈ children, Digits child.mode ∧ (walkItem read depth dirPath child.toTreeItem).isSome) ∧
      (children.flatMap fun child => (walkItem read depth dirPath child.toTreeItem).getD []).Perm
        (used.map IndexEntry.listed) := by
  induction builds generalizing depth dirPath with
  | stop => exact ⟨[], rfl, by simp, by simp⟩
  | @file dir entry rest left name children bodies parts run ih =>
    obtain ⟨used, rfl, each, perm⟩ := ih stored here (fun entry inside => files entry (.tail _ inside))
      (fun entry inside => short entry (.tail _ inside))
      (fun entry inside => deep entry (.tail _ inside))
    have fine := below_fine parts
    have names : entry.path.names = [name] ++ dir := below_eq (reverse_eq_iff.1 parts) (cons_ne_nil _ _)
    have walked : walkItem read depth dirPath ⟨octalText entry.mode, name, entry.sha, fine⟩ = some [entry.listed] :=
      walkItem_file fine here names (files entry (.head _)) (short entry (.head _))
    refine ⟨entry :: used, rfl, ?_, ?_⟩
    · exact forall_mem_cons.2 ⟨⟨(octalText_standard (files entry (.head _))).1, by rw [walked]; rfl⟩, each⟩
    · rw [flatMap_cons, walked]
      exact perm.cons _
  | @tree dir entry rest between left name second more inner children written bodies id parts room down named run ihDown ih =>
    have fine := below_fine parts
    -- the entry lies two levels down at least, so there is depth for one
    have names := below_eq (reverse_eq_iff.1 parts) (by simp)
    have level := deep entry (.head _)
    rw [names] at level
    simp only [reverse_cons, append_assoc, length_append, length_reverse, length_cons, length_nil] at level
    obtain ⟨depth, rfl⟩ : ∃ less, depth = less + 1 := ⟨depth - 1, by omega⟩
    have hereInner : ((some (IndexPath.child dirPath name fine)).map IndexPath.names).getD [] = name :: dir :=
      IndexPath.child_names fine here
    have deepInner : ∀ other ∈ entry :: rest, other.path.names.length ≤ (name :: dir).length + depth + 1 := by
      intro other inside
      have := deep other inside
      rw [length_cons]
      omega
    obtain ⟨first, split, eachInner, permInner⟩ :=
      ihDown (fun body inside => stored body (mem_append_left _ inside)) hereInner files short deepInner
    obtain ⟨id', object, named', found, tree, content⟩ := stored (treeBody inner) (by simp)
    cases named.symm.trans named'
    obtain ⟨out, walk, order⟩ := treeWalk_body found tree content eachInner
    have walked := walkItem_dir fine here room walk
    rw [split] at files short deep
    obtain ⟨used, rfl, each, perm⟩ := ih (fun body inside => stored body (mem_append_right _ (.tail _ inside))) here
      (fun entry inside => files entry (mem_append_right _ inside))
      (fun entry inside => short entry (mem_append_right _ inside))
      (fun entry inside => deep entry (mem_append_right _ inside))
    refine ⟨first ++ used, by rw [split, append_assoc], ?_, ?_⟩
    · exact forall_mem_cons.2 ⟨⟨digits_tree, by rw [walked]; rfl⟩, each⟩
    · rw [flatMap_cons, walked, map_append]
      exact (order.trans permInner).append perm

end

theorem buildLevel_top (built : buildLevel host levels turns [] entries = some (children, bodies, left)) :
    left = [] := by
  cases left with
  | nil => rfl
  | cons entry rest =>
    have none : entry.path.names = [] := by simpa [below] using builds_stops (builds_of_buildLevel built) entry rfl
    exact (entry.path.ok.1 none).elim

theorem length_le_intercalate {parts : List Bytes} (full : ∀ part ∈ parts, part ≠ []) :
    2 * parts.length ≤ (List.intercalate [0x2f] parts).length + 1 := by
  induction parts with
  | nil => simp
  | cons part rest ih =>
    have some : 0 < part.length := length_pos_iff.2 (full part (.head _))
    have fewer := ih fun other inside => full other (.tail _ inside)
    cases rest with
    | nil =>
      simp
      omega
    | cons next rest =>
      rw [intercalate_cons_cons]
      simp only [length_cons, length_append] at fewer ⊢
      omega

theorem names_le_text (path : IndexPath) : 2 * path.names.length ≤ path.text.length + 1 := by
  have full : ∀ part ∈ path.names.reverse.map FileName.bytes, part ≠ [] := by
    intro part inside
    obtain ⟨name, -, rfl⟩ := mem_map.1 inside
    exact name.ok.1
  simpa [IndexPath.text] using length_le_intercalate full

theorem insertionSort_ascending (sorted : Ascending entries) (perm : out.Perm entries) :
    out.insertionSort entryLE = entries := by
  have order : entries.Pairwise entryLE := sorted.imp fun less => .inl less
  have distinct : (entries.map IndexEntry.path).Nodup := by
    rw [List.Nodup, pairwise_map]
    apply sorted.imp
    intro a b less same
    rw [same] at less
    exact List.lt_irrefl _ less
  apply List.Perm.eq_of_pairwise _ (pairwise_insertionSort entryLE out) order
    ((perm_insertionSort entryLE out).trans perm)
  intro a b inside inside' below above
  have member : a ∈ entries := perm.mem_iff.1 ((mem_insertionSort entryLE).1 inside)
  apply inj_on_of_nodup_map distinct member inside'
  obtain less | ⟨same, -⟩ := below
  · obtain more | ⟨same, -⟩ := above
    · exact (List.lt_irrefl _ (List.lt_trans less more)).elim
    · exact same.symm
  · exact same

theorem readTree_buildTree (built : buildTree host levels entries = some (id, bodies))
    (stored : Stored host read bodies)
    (files : ∀ entry ∈ entries, StandardMode entry.mode) (short : ∀ entry ∈ entries, entry.path.text.length < 4096)
    (deep : ∀ entry ∈ entries, entry.path.names.length ≤ levels + 1) (sorted : Ascending entries) :
    readTreeIn (levels + 1) read id = some (entries.map IndexEntry.listed) := by
  unfold buildTree at built
  split at built
  · cases built
  obtain ⟨⟨children, inner, left⟩, level, built⟩ := bind_eq_some_iff.1 built
  obtain ⟨id', named, same⟩ := map_eq_some_iff.1 built
  cases same
  obtain rfl := buildLevel_top level
  have top : ((none : Option IndexPath).map IndexPath.names).getD [] = [] := rfl
  have deep : ∀ entry ∈ entries, entry.path.names.length ≤ ([] : List FileName).length + levels + 1 := by
    simpa using deep
  obtain ⟨used, whole, each, perm⟩ :=
    builds_reads (builds_of_buildLevel level) (fun body inside => stored body (mem_append_left _ inside)) top
      files short deep
  rw [append_nil] at whole
  subst whole
  obtain ⟨id'', object, named', found, tree, content⟩ := stored (treeBody children) (by simp)
  cases named.symm.trans named'
  obtain ⟨out, walk, order⟩ := treeWalk_body found tree content each
  rw [readTreeIn, walk, map_some]
  congr 1
  exact insertionSort_ascending (pairwise_map.2 sorted) (order.trans perm)

end

end BashOs.Git.WorkTree
