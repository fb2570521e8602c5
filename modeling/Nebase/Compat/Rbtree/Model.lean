/- The red-black tree of compat/rbtree: nodes in memory that hold the addresses of their children
   and of their father, and the operations on them. -/

import Nebase.Foundation.RedBlack.Tree

set_option autoImplicit false
set_option relaxedAutoImplicit false

namespace Nebase.Compat.Rbtree

open Nebase.Foundation.RedBlack (Dir Color)

/-- The address of a `struct rb_node`, by which the object around it is known as well. -/
abbrev NodeAddr := Nat

/-- A `struct rb_node *`; `slot` is `(struct rb_node *)&rbt->rbt_root`. -/
inductive Ptr
  | null
  | slot
  | node (a : NodeAddr)
  deriving DecidableEq

/-- The three parts of `rb_info` are fields of their own. -/
structure RbNode where
  rbLeft : Ptr
  rbRight : Ptr
  father : Ptr
  position : Dir
  color : Color
  deriving DecidableEq

/-- `nodes` is the memory of the nodes; an address with no node may not be accessed. -/
structure RbTree where
  rbtRoot : Ptr
  rbtMinmax : Dir → Ptr
  nodes : NodeAddr → Option RbNode

/-- `rb_tree_ops_t`: the comparisons read the objects at the addresses. -/
structure RbTreeOps (κ : Type) where
  compareNodes : NodeAddr → NodeAddr → Int
  compareKey : NodeAddr → κ → Int

def RbNode.rbNodes (n : RbNode) : Dir → Ptr
  | .left => n.rbLeft
  | .right => n.rbRight

def RbNode.setRbNodes (n : RbNode) (d : Dir) (p : Ptr) : RbNode :=
  match d with
  | .left => { n with rbLeft := p }
  | .right => { n with rbRight := p }

/-! Access through a pointer. `none` is undefined behaviour. -/

def RbTree.deref (t : RbTree) : Ptr → Option RbNode
  | .node a => t.nodes a
  | _ => none

def RbTree.store (t : RbTree) (a : NodeAddr) (n : RbNode) : RbTree :=
  { t with nodes := Function.update t.nodes a (some n) }

def RbTree.update (t : RbTree) (p : Ptr) (f : RbNode → RbNode) : Option RbTree :=
  match p with
  | .node a => (t.nodes a).map (fun n => t.store a (f n))
  | _ => none

/-- `p->rb_nodes[d]`; the first entry of the slot is `rbt_root`. -/
def RbTree.rbNodes (t : RbTree) (p : Ptr) (d : Dir) : Option Ptr :=
  match p, d with
  | .slot, .left => some t.rbtRoot
  | p, d => (t.deref p).map (fun n => n.rbNodes d)

def RbTree.setRbNodes (t : RbTree) (p : Ptr) (d : Dir) (q : Ptr) : Option RbTree :=
  match p, d with
  | .slot, .left => some { t with rbtRoot := q }
  | p, d => t.update p (fun n => n.setRbNodes d q)

def RbTree.rbFather (t : RbTree) (p : Ptr) : Option Ptr := (t.deref p).map (·.father)

def RbTree.rbPosition (t : RbTree) (p : Ptr) : Option Dir := (t.deref p).map (·.position)

def RbTree.rbSetFather (t : RbTree) (p father : Ptr) : Option RbTree :=
  t.update p (fun n => { n with father := father })

def RbTree.rbSetPosition (t : RbTree) (p : Ptr) (position : Dir) : Option RbTree :=
  t.update p (fun n => { n with position := position })

/-- `RB_RED_P` and `RB_BLACK_P`: the sentinel is black. -/
def RbTree.rbColor (t : RbTree) : Ptr → Option Color
  | .null => some .black
  | p => (t.deref p).map (·.color)

def RbTree.rbMark (t : RbTree) (p : Ptr) (color : Color) : Option RbTree :=
  t.update p (fun n => { n with color := color })

/-- `RB_COPY_PROPERTIES(dst, src)`. -/
def RbTree.rbCopyProperties (t : RbTree) (dst src : Ptr) : Option RbTree := do
  let n ← t.deref src
  t.update dst (fun m => { m with position := n.position, color := n.color })

/-- `RB_SWAP_PROPERTIES(a, b)`. -/
def RbTree.rbSwapProperties (t : RbTree) (a b : Ptr) : Option RbTree := do
  let m ← t.deref a
  let n ← t.deref b
  let t ← t.update a (fun m => { m with position := n.position, color := n.color })
  t.update b (fun n => { n with position := m.position, color := m.color })

def RbTree.setMinmax (t : RbTree) (d : Dir) (p : Ptr) : RbTree :=
  { t with rbtMinmax := Function.update t.rbtMinmax d p }

/-- `rb_tree_init`; `nodes` is what the memory holds. -/
def rbTreeInit (nodes : NodeAddr → Option RbNode) : RbTree where
  rbtRoot := .null
  rbtMinmax := fun _ => .null
  nodes := nodes

/-! The loops run on a number of turns that bounds them; the result is `none` when it is used up. -/

/-- The loop of `rb_tree_find_node`. -/
def findLoop (compareKey : NodeAddr → Int) (t : RbTree) : Nat → Ptr → Option Ptr
  | 0, _ => none
  | _ + 1, .null => some .null
  | _ + 1, .slot => none
  | fuel + 1, .node a =>
    let diff := compareKey a
    if diff = 0 then
      some (.node a)
    else do
      let parent ← t.rbNodes (.node a) (if diff < 0 then .right else .left)
      findLoop compareKey t fuel parent

def rbTreeFindNode {κ : Type} (ops : RbTreeOps κ) (fuel : Nat) (t : RbTree) (key : κ) :
    Option Ptr :=
  findLoop (fun a => ops.compareKey a key) t fuel t.rbtRoot

/-- The loop of `rb_tree_find_node_geq` and of `rb_tree_find_node_leq`; `keep` says which nodes are
remembered in `last`. -/
def findLastLoop (compareKey : NodeAddr → Int) (keep : Int → Bool) (t : RbTree) :
    Nat → Ptr → Ptr → Option Ptr
  | 0, _, _ => none
  | _ + 1, .null, last => some last
  | _ + 1, .slot, _ => none
  | fuel + 1, .node a, last =>
    let diff := compareKey a
    if diff = 0 then
      some (.node a)
    else do
      let parent ← t.rbNodes (.node a) (if diff < 0 then .right else .left)
      findLastLoop compareKey keep t fuel parent (if keep diff then .node a else last)

def rbTreeFindNodeGeq {κ : Type} (ops : RbTreeOps κ) (fuel : Nat) (t : RbTree) (key : κ) :
    Option Ptr :=
  findLastLoop (fun a => ops.compareKey a key) (fun diff => 0 < diff) t fuel t.rbtRoot .null

def rbTreeFindNodeLeq {κ : Type} (ops : RbTreeOps κ) (fuel : Nat) (t : RbTree) (key : κ) :
    Option Ptr :=
  findLastLoop (fun a => ops.compareKey a key) (fun diff => diff < 0) t fuel t.rbtRoot .null

/-- The location and the colour of `oldFather` and of its child `which` are swapped. -/
def rbTreeReparentNodes (t : RbTree) (oldFather : Ptr) (which : Dir) : Option RbTree := do
  let other := which.other
  let grandpa ← t.rbFather oldFather
  let oldChild ← t.rbNodes oldFather which
  let newFather := oldChild
  let newChild := oldFather
  -- exchange descendant linkages
  let position ← t.rbPosition oldFather
  let t ← t.setRbNodes grandpa position newFather
  let inner ← t.rbNodes oldChild other
  let t ← t.setRbNodes newChild which inner
  let t ← t.setRbNodes newFather other newChild
  -- update ancestor linkages
  let t ← t.rbSetFather newFather grandpa
  let t ← t.rbSetFather newChild newFather
  -- exchange properties
  let t ← t.rbSwapProperties newFather newChild
  let t ← t.rbSetPosition newChild other
  let inner ← t.rbNodes newChild which
  if inner ≠ .null then do
    let t ← t.rbSetFather inner newChild
    t.rbSetPosition inner which
  else
    some t

/-- What follows the loop of `rb_tree_insert_rebalance`: cases 2 and 3. -/
def insertRotations (t : RbTree) (self father grandpa : Ptr) (which : Dir) : Option RbTree := do
  let other := which.other
  let otherSon ← t.rbNodes father other
  let t ← (if self = otherSon then rbTreeReparentNodes t father other else some t)
  let t ← rbTreeReparentNodes t grandpa which
  t.rbMark t.rbtRoot .black

/-- The loop of `rb_tree_insert_rebalance`. -/
def insertRebalanceLoop : Nat → RbTree → Ptr → Ptr → Option RbTree
  | 0, _, _, _ => none
  | fuel + 1, t, self, father => do
    let grandpa ← t.rbFather father
    let rightSon ← t.rbNodes grandpa .right
    let which := if father = rightSon then Dir.right else .left
    let uncle ← t.rbNodes grandpa which.other
    let color ← t.rbColor uncle
    if color = .black then
      insertRotations t self father grandpa which
    else do
      let t ← t.rbMark uncle .black
      let t ← t.rbMark father .black
      if t.rbtRoot = grandpa then
        some t
      else do
        let t ← t.rbMark grandpa .red
        let self := grandpa
        let father ← t.rbFather self
        let color ← t.rbColor father
        if color = .black then some t else insertRebalanceLoop fuel t self father

def rbTreeInsertRebalance (fuel : Nat) (t : RbTree) (self : Ptr) : Option RbTree := do
  let father ← t.rbFather self
  insertRebalanceLoop fuel t self father

/-- The descent of `rb_tree_insert_node`: the equal node, or the parent and the position. -/
def insertDescent (compareNodes : NodeAddr → Int) (t : RbTree) :
    Nat → Ptr → Dir → Ptr → Option (NodeAddr ⊕ (Ptr × Dir))
  | 0, _, _, _ => none
  | _ + 1, parent, position, .null => some (.inr (parent, position))
  | _ + 1, _, _, .slot => none
  | fuel + 1, _, _, .node a =>
    let diff := compareNodes a
    if diff = 0 then
      some (.inl a)
    else do
      let position : Dir := if diff < 0 then .right else .left
      let tmp ← t.rbNodes (.node a) position
      insertDescent compareNodes t fuel (.node a) position tmp

/-- The new node becomes a leaf below `parent`. -/
def insertLeaf (fuel : Nat) (t : RbTree) (self parent : Ptr) (position : Dir) :
    Option RbTree := do
  let t ← t.rbSetFather self parent
  let t ← t.rbSetPosition self position
  let (t, rebalance) ← (if parent = .slot then do
      let t ← t.rbMark self .black
      some ((t.setMinmax .left self).setMinmax .right self, false)
    else do
      let t := if parent = t.rbtMinmax position then t.setMinmax position self else t
      let t ← t.rbMark self .red
      let color ← t.rbColor parent
      some (t, decide (color = .red)))
  let sentinel ← t.rbNodes parent position
  let t ← t.setRbNodes self .left sentinel
  let t ← t.setRbNodes self .right sentinel
  let t ← t.setRbNodes parent position self
  if rebalance then rbTreeInsertRebalance fuel t self else some t

/-- The tree after `rb_tree_insert_node` and the node it returns. -/
def rbTreeInsertNode {κ : Type} (ops : RbTreeOps κ) (fuel : Nat) (t : RbTree)
    (object : NodeAddr) : Option (RbTree × NodeAddr) := do
  let place ← insertDescent (fun a => ops.compareNodes a object) t fuel .slot .left t.rbtRoot
  match place with
  | .inl tobj => some (t, tobj)
  | .inr (parent, position) => do
    let t ← insertLeaf fuel t (.node object) parent position
    some (t, object)

/-- Cases 2b, 3 and 4 of `rb_tree_removal_rebalance`, which end its loop. -/
def removalFinal (t : RbTree) (parent brother : Ptr) (which : Dir) : Option RbTree := do
  let other := which.other
  let parentColor ← t.rbColor parent
  let brotherColor ← t.rbColor brother
  let leftColor ← t.rbNodes brother .left >>= t.rbColor
  let rightColor ← t.rbNodes brother .right >>= t.rbColor
  if parentColor = .red ∧ brotherColor = .black ∧ leftColor = .black ∧ rightColor = .black then do
    let t ← t.rbMark parent .black
    t.rbMark brother .red
  else do
    let farColor ← t.rbNodes brother other >>= t.rbColor
    let (t, brother) ← (if farColor = .black then do
        let t ← rbTreeReparentNodes t brother which
        let brother ← t.rbNodes parent other
        some (t, brother)
      else
        some (t, brother))
    let far ← t.rbNodes brother other
    let t ← t.rbMark far .black
    rbTreeReparentNodes t parent other

/-- The loop of `rb_tree_removal_rebalance`. -/
def rbTreeRemovalRebalance : Nat → RbTree → Ptr → Dir → Option RbTree
  | 0, _, _, _ => none
  | fuel + 1, t, parent, which => do
    let color ← t.rbNodes parent which >>= t.rbColor
    if color = .red then
      some t
    else do
      let other := which.other
      let brother ← t.rbNodes parent other
      let parentColor ← t.rbColor parent
      let leftColor ← t.rbNodes brother .left >>= t.rbColor
      let rightColor ← t.rbNodes brother .right >>= t.rbColor
      if parentColor = .black ∧ leftColor = .black ∧ rightColor = .black then do
        let brotherColor ← t.rbColor brother
        if brotherColor = .red then do
          let t ← rbTreeReparentNodes t parent other
          let brother ← t.rbNodes parent other
          removalFinal t parent brother which
        else do
          let t ← t.rbMark brother .red
          if t.rbtRoot = parent then
            some t
          else do
            let which ← t.rbPosition parent
            let parent ← t.rbFather parent
            rbTreeRemovalRebalance fuel t parent which
      else
        removalFinal t parent brother which

def rbTreePruneNode (fuel : Nat) (t : RbTree) (self : Ptr) (rebalance : Bool) :
    Option RbTree := do
  let which ← t.rbPosition self
  let father ← t.rbFather self
  let wasRoot := decide (t.rbtRoot = self)
  let leftSon ← t.rbNodes self .left
  let t ← t.setRbNodes father which leftSon
  let t :=
    if t.rbtMinmax which = self then
      let t := t.setMinmax which father
      if wasRoot then t.setMinmax .right father else t
    else t
  let t ← t.rbSetFather self .null
  if rebalance then rbTreeRemovalRebalance fuel t father which else some t

/-- `self` has two children; `standin` takes its place. -/
def rbTreeSwapPruneAndRebalance (fuel : Nat) (t : RbTree) (self standin : Ptr) :
    Option RbTree := do
  let standinWhich ← t.rbPosition standin
  let standinOther := standinWhich.other
  let standinFather ← t.rbFather standin
  let standinColor ← t.rbColor standin
  let standinSon ← t.rbNodes standin (if standinFather = self then standinWhich else standinOther)
  let sonColor ← t.rbColor standinSon
  let (t, rebalance) ← (if sonColor = .red then do
      let t ← t.rbMark standinSon .black
      if standinFather = self then
        some (t, false)
      else do
        let t ← t.rbSetFather standinSon standinFather
        let t ← t.rbSetPosition standinSon standinWhich
        some (t, false)
    else
      some (t, decide (standinColor = .black)))
  let (t, standinFather, standinOther) ← (if standinFather = self then
      some (t, standin, standinOther)
    else do
      -- sever standin's connection to his father, adopt the far son
      let t ← t.setRbNodes standinFather standinWhich standinSon
      let far ← t.rbNodes self standinOther
      let t ← t.setRbNodes standin standinOther far
      let t ← t.rbSetFather far standin
      some (t, standinFather, standinWhich))
  -- move the only remaining son to our standin
  let son ← t.rbNodes self standinOther
  let t ← t.setRbNodes standin standinOther son
  let t ← t.rbSetFather son standin
  let t ← t.rbCopyProperties standin self
  let father ← t.rbFather self
  let t ← t.rbSetFather standin father
  let position ← t.rbPosition standin
  let t ← t.setRbNodes father position standin
  let t := if t.rbtMinmax position = self then t.setMinmax position father else t
  let t ← t.rbSetFather self .null
  if rebalance then rbTreeRemovalRebalance fuel t standinFather standinWhich else some t

/-- `self` is black and its only child `which` red. -/
def rbTreePruneBlackredBranch (t : RbTree) (self : Ptr) (which : Dir) : Option RbTree := do
  let father ← t.rbFather self
  let son ← t.rbNodes self which
  let wasRoot := decide (t.rbtRoot = self)
  let t ← t.rbCopyProperties son self
  let position ← t.rbPosition son
  let t ← t.setRbNodes father position son
  let t ← t.rbSetFather son father
  let t :=
    if wasRoot then t.setMinmax which.other son
    else if t.rbtMinmax position = self then t.setMinmax position son
    else t
  t.rbSetFather self .null

/-- The climb of `rb_tree_iterate`. -/
def iterateUp (t : RbTree) (other : Dir) : Nat → Ptr → Option Ptr
  | 0, _ => none
  | fuel + 1, self =>
    if t.rbtRoot = self then
      some .null
    else do
      let position ← t.rbPosition self
      let father ← t.rbFather self
      if other = position then some father else iterateUp t other fuel father

/-- Its descent. -/
def iterateDown (t : RbTree) (other : Dir) : Nat → Ptr → Option Ptr
  | 0, _ => none
  | fuel + 1, self => do
    let son ← t.rbNodes self other
    if son = .null then some self else iterateDown t other fuel son

def rbTreeIterate (fuel : Nat) (t : RbTree) (object : Ptr) (direction : Dir) : Option Ptr :=
  if object = .null then
    some (if t.rbtRoot = .null then .null else t.rbtMinmax direction)
  else do
    let son ← t.rbNodes object direction
    if son = .null then
      iterateUp t direction.other fuel object
    else
      iterateDown t direction.other fuel son

def rbTreeRemoveNode (fuel : Nat) (t : RbTree) (object : NodeAddr) : Option RbTree := do
  let self := Ptr.node object
  let left ← t.rbNodes self .left
  let right ← t.rbNodes self .right
  if left = .null ∧ right = .null then do
    let color ← t.rbColor self
    rbTreePruneNode fuel t self (color = .black ∧ t.rbtRoot ≠ self)
  else if left = .null ∨ right = .null then
    rbTreePruneBlackredBranch t self (if left = .null then .right else .left)
  else do
    let position ← t.rbPosition self
    let standin ← rbTreeIterate fuel t self position.other
    rbTreeSwapPruneAndRebalance fuel t self standin

end Nebase.Compat.Rbtree
