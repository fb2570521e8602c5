/- A tree seen from one of its places is in memory: what the nodes of the subtree and those of its
   context hold, how the place moves, and what a write leaves alone. -/

import Nebase.Compat.Rbtree.Model
import Nebase.Foundation.RedBlack.Remove

set_option autoImplicit false
set_option relaxedAutoImplicit false

namespace Nebase.Compat.Rbtree

open Nebase.Foundation.RedBlack

abbrev Memory := NodeAddr → Option RbNode

def ptr : ColorTree NodeAddr → Ptr
  | .leaf => .null
  | .node _ _ a _ => .node a

def fatherPtr : Context NodeAddr → Ptr
  | [] => .slot
  | f :: _ => .node f.elem

/-- The node with the child `near` in the direction `d`. -/
def rbNode (d : Dir) (near far father : Ptr) (position : Dir) (color : Color) : RbNode :=
  match d with
  | .left => ⟨near, far, father, position, color⟩
  | .right => ⟨far, near, father, position, color⟩

/-- The nodes of a subtree. -/
def RepTree (m : Memory) : Ptr → Dir → ColorTree NodeAddr → Prop
  | _, _, .leaf => True
  | father, d, .node c l a r =>
    m a = some ⟨ptr l, ptr r, father, d, c⟩ ∧
      RepTree m (.node a) .left l ∧ RepTree m (.node a) .right r

/-- The nodes of a context, with `p` in its hole. -/
def RepContext (t : RbTree) : Context NodeAddr → Ptr → Prop
  | [], p => t.rbtRoot = p
  | f :: k, p =>
    t.nodes f.elem = some (rbNode f.dir p (ptr f.sibling) (fatherPtr k) (position k) f.color) ∧
      RepTree t.nodes (.node f.elem) f.dir.other f.sibling ∧ RepContext t k (.node f.elem)

structure Represents (t : RbTree) (k : Context NodeAddr) (s : ColorTree NodeAddr) : Prop where
  context : RepContext t k (ptr s)
  tree : RepTree t.nodes (fatherPtr k) (position k) s
  nodup : (plug k s).inorder.Nodup

@[simp] theorem ptr_leaf : ptr .leaf = .null := rfl

@[simp] theorem ptr_node (c : Color) (l r : ColorTree NodeAddr) (a : NodeAddr) :
    ptr (.node c l a r) = .node a := rfl

@[simp] theorem ptr_build (c : Color) (d : Dir) (x y : ColorTree NodeAddr) (a : NodeAddr) :
    ptr (.build c d x a y) = .node a := by
  cases d <;> rfl

@[simp] theorem ptr_paint (c : Color) (t : ColorTree NodeAddr) : ptr (t.paint c) = ptr t := by
  cases t <;> rfl

theorem ptr_eq_null {t : ColorTree NodeAddr} : ptr t = .null ↔ t = .leaf := by
  cases t <;> simp

@[simp] theorem rb_node_father (d : Dir) (p q f : Ptr) (e : Dir) (c : Color) :
    (rbNode d p q f e c).father = f := by
  cases d <;> rfl

@[simp] theorem rb_node_position (d : Dir) (p q f : Ptr) (e : Dir) (c : Color) :
    (rbNode d p q f e c).position = e := by
  cases d <;> rfl

@[simp] theorem rb_node_color (d : Dir) (p q f : Ptr) (e : Dir) (c : Color) :
    (rbNode d p q f e c).color = c := by
  cases d <;> rfl

@[simp] theorem rb_node_near (d : Dir) (p q f : Ptr) (e : Dir) (c : Color) :
    (rbNode d p q f e c).rbNodes d = p := by
  cases d <;> rfl

@[simp] theorem rb_node_far (d : Dir) (p q f : Ptr) (e : Dir) (c : Color) :
    (rbNode d p q f e c).rbNodes d.other = q := by
  cases d <;> rfl

@[simp] theorem rb_node_set_near (d : Dir) (p p' q f : Ptr) (e : Dir) (c : Color) :
    (rbNode d p q f e c).setRbNodes d p' = rbNode d p' q f e c := by
  cases d <;> rfl

@[simp] theorem rb_node_set_far (d : Dir) (p q q' f : Ptr) (e : Dir) (c : Color) :
    (rbNode d p q f e c).setRbNodes d.other q' = rbNode d p q' f e c := by
  cases d <;> rfl

theorem bind_of_eq {α β : Type} {o : Option α} {a : α} {f : α → Option β} (h : o = some a) :
    (o >>= f) = f a := by
  rw [h]
  rfl

@[simp] theorem deref_node (t : RbTree) (a : NodeAddr) : t.deref (.node a) = t.nodes a := rfl

@[simp] theorem update_node (t : RbTree) (a : NodeAddr) (f : RbNode → RbNode) :
    t.update (.node a) f = (t.nodes a).map (fun n => t.store a (f n)) := rfl

@[simp] theorem rb_nodes_node (t : RbTree) (a : NodeAddr) (d : Dir) :
    t.rbNodes (.node a) d = (t.nodes a).map (fun n => n.rbNodes d) := rfl

@[simp] theorem set_rb_nodes_node (t : RbTree) (a : NodeAddr) (d : Dir) (p : Ptr) :
    t.setRbNodes (.node a) d p = (t.nodes a).map (fun n => t.store a (n.setRbNodes d p)) := rfl

theorem rep_tree_build {m : Memory} {father : Ptr} {e d : Dir} {c : Color}
    {x y : ColorTree NodeAddr} {a : NodeAddr} :
    RepTree m father e (.build c d x a y) ↔ m a = some (rbNode d (ptr x) (ptr y) father e c) ∧
      RepTree m (.node a) d x ∧ RepTree m (.node a) d.other y := by
  cases d with
  | left => exact Iff.rfl
  | right => exact and_congr Iff.rfl And.comm

/-! Moving the place. -/

theorem represents_cons {t : RbTree} {f : Frame NodeAddr} {k : Context NodeAddr}
    {s : ColorTree NodeAddr} :
    Represents t (f :: k) s ↔
      Represents t k (.build f.color f.dir s f.elem f.sibling) := by
  constructor
  · rintro ⟨⟨cell, sibling, context⟩, tree, nodup⟩
    refine ⟨by rwa [ptr_build], rep_tree_build.mpr ⟨cell, tree, sibling⟩, nodup⟩
  · rintro ⟨context, tree, nodup⟩
    obtain ⟨cell, tree, sibling⟩ := rep_tree_build.mp tree
    rw [ptr_build] at context
    exact ⟨⟨cell, sibling, context⟩, tree, nodup⟩

/-- From one child of a node to the other. -/
theorem represents_sibling {t : RbTree} {d : Dir} {c : Color} {a : NodeAddr}
    {k : Context NodeAddr} {x y : ColorTree NodeAddr} :
    Represents t (⟨d, c, a, y⟩ :: k) x ↔ Represents t (⟨d.other, c, a, x⟩ :: k) y := by
  rw [represents_cons, represents_cons, ColorTree.build_other]

theorem represents_append {t : RbTree} {k k' : Context NodeAddr} {s : ColorTree NodeAddr} :
    Represents t (k ++ k') s ↔ Represents t k' (plug k s) := by
  induction k generalizing s with
  | nil => exact Iff.rfl
  | cons f k ih => rw [List.cons_append, represents_cons, ih, plug_cons]

/-- The whole tree, seen from its root. -/
theorem represents_plug {t : RbTree} {k : Context NodeAddr} {s : ColorTree NodeAddr} :
    Represents t k s ↔ Represents t [] (plug k s) := by
  have h : Represents t (k ++ []) s ↔ Represents t [] (plug k s) := represents_append
  rwa [List.append_nil] at h

/-! What lies apart from the place. -/

def InContext (a : NodeAddr) (k : Context NodeAddr) : Prop := a ∈ before k ∨ a ∈ after k

theorem in_context_cons {a : NodeAddr} {f : Frame NodeAddr} {k : Context NodeAddr} :
    InContext a (f :: k) ↔ a = f.elem ∨ a ∈ f.sibling.inorder ∨ InContext a k := by
  unfold InContext
  cases hd : f.dir <;> simp only [before, after, hd, List.mem_append, List.mem_cons,
    List.not_mem_nil, or_false] <;> tauto

theorem mem_inorder_plug {a : NodeAddr} {k : Context NodeAddr} {s : ColorTree NodeAddr} :
    a ∈ (plug k s).inorder ↔ a ∈ s.inorder ∨ InContext a k := by
  rw [inorder_plug]
  simp only [InContext, List.mem_append]
  tauto

theorem nodup_plug {k : Context NodeAddr} {s : ColorTree NodeAddr} :
    (plug k s).inorder.Nodup ↔ (before k ++ after k).Nodup ∧ s.inorder.Nodup ∧
      ∀ a ∈ s.inorder, ¬ InContext a k := by
  rw [inorder_plug]
  simp only [List.nodup_append, List.mem_append, InContext]
  constructor
  · rintro ⟨hb, ⟨hs, ha, hsa⟩, hbs⟩
    refine ⟨⟨hb, ha, fun a h b h' => hbs a h b (.inr h')⟩, hs, ?_⟩
    rintro a h (h' | h')
    · exact hbs a h' a (.inl h) rfl
    · exact hsa a h a h' rfl
  · rintro ⟨⟨hb, ha, hba⟩, hs, apart⟩
    refine ⟨hb, ⟨hs, ha, ?_⟩, ?_⟩
    · rintro a h b h' rfl
      exact apart a h (.inr h')
    · rintro a h b (h' | h')
      · rintro rfl
        exact apart a h' (.inl h)
      · exact hba a h b h'

theorem RepTree.congr {m m' : Memory} {father : Ptr} {d : Dir} {s : ColorTree NodeAddr}
    (same : ∀ a ∈ s.inorder, m' a = m a) (rep : RepTree m father d s) :
    RepTree m' father d s := by
  induction s generalizing father d with
  | leaf => trivial
  | node c l a r ihl ihr =>
    simp only [ColorTree.inorder, List.mem_append, List.mem_cons] at same
    exact ⟨(same a (.inr (.inl rfl))).trans rep.1, ihl (fun b hb => same b (.inl hb)) rep.2.1,
      ihr (fun b hb => same b (.inr (.inr hb))) rep.2.2⟩

theorem RepContext.congr {t t' : RbTree} {k : Context NodeAddr} {p : Ptr}
    (root : t'.rbtRoot = t.rbtRoot) (same : ∀ a, InContext a k → t'.nodes a = t.nodes a)
    (rep : RepContext t k p) : RepContext t' k p := by
  induction k generalizing p with
  | nil => exact root.trans rep
  | cons f k ih =>
    simp only [in_context_cons] at same
    exact ⟨(same _ (.inl rfl)).trans rep.1,
      rep.2.1.congr (fun a ha => same a (.inr (.inl ha))),
      ih (fun a ha => same a (.inr (.inr ha))) rep.2.2⟩

/-- A subtree whose root gets another father or another position. -/
theorem RepTree.reparent {m m' : Memory} {father father' : Ptr} {d d' : Dir} {c : Color}
    {l r : ColorTree NodeAddr} {a : NodeAddr} (rep : RepTree m father d (.node c l a r))
    {c' : Color} (nodup : (ColorTree.node c l a r).inorder.Nodup)
    (cell : m' a = some ⟨ptr l, ptr r, father', d', c'⟩)
    (same : ∀ b ∈ (ColorTree.node c l a r).inorder, b ≠ a → m' b = m b) :
    RepTree m' father' d' (.node c' l a r) := by
  simp only [ColorTree.inorder, List.nodup_append, List.nodup_cons, List.mem_append,
    List.mem_cons] at nodup same
  refine ⟨cell, rep.2.1.congr (fun b hb => same b (.inl hb) ?_),
    rep.2.2.congr (fun b hb => same b (.inr (.inr hb)) ?_)⟩
  · exact nodup.2.2 b hb a (.inl rfl)
  · rintro rfl
    exact nodup.2.1.1 hb

@[simp] theorem store_root (t : RbTree) (a : NodeAddr) (n : RbNode) :
    (t.store a n).rbtRoot = t.rbtRoot := rfl

@[simp] theorem store_minmax (t : RbTree) (a : NodeAddr) (n : RbNode) :
    (t.store a n).rbtMinmax = t.rbtMinmax := rfl

@[simp] theorem store_nodes_self (t : RbTree) (a : NodeAddr) (n : RbNode) :
    (t.store a n).nodes a = some n := Function.update_self ..

theorem store_nodes (t : RbTree) (a b : NodeAddr) (n : RbNode) :
    (t.store a n).nodes b = if b = a then some n else t.nodes b := by
  simp [RbTree.store, Function.update_apply]

theorem store_nodes_of_ne (t : RbTree) {a b : NodeAddr} (n : RbNode) (h : b ≠ a) :
    (t.store a n).nodes b = t.nodes b := Function.update_of_ne h _ _

/-- The tree after a write to the cell that holds the hole of `k`. -/
def RbTree.fill (t : RbTree) (k : Context NodeAddr) (p : Ptr) : RbTree :=
  match k with
  | [] => { t with rbtRoot := p }
  | f :: k =>
    t.store f.elem (rbNode f.dir p (ptr f.sibling) (fatherPtr k) (position k) f.color)

@[simp] theorem fill_minmax (t : RbTree) (k : Context NodeAddr) (p : Ptr) :
    (t.fill k p).rbtMinmax = t.rbtMinmax := by
  cases k <;> rfl

theorem fill_nodes {t : RbTree} {k : Context NodeAddr} {p : Ptr} {a : NodeAddr}
    (apart : ¬ InContext a k) : (t.fill k p).nodes a = t.nodes a := by
  cases k with
  | nil => rfl
  | cons f k =>
    rw [in_context_cons, not_or] at apart
    exact store_nodes_of_ne t _ apart.1

theorem set_rb_nodes_context {t : RbTree} {k : Context NodeAddr} {p q : Ptr}
    (rep : RepContext t k p) :
    t.setRbNodes (fatherPtr k) (position k) q = some (t.fill k q) := by
  cases k with
  | nil => rfl
  | cons f k =>
    have cell := rep.1
    cases hd : f.dir <;>
      simp [RbTree.setRbNodes, fatherPtr, position, RbTree.update, cell, hd, RbTree.fill,
        rbNode, RbNode.setRbNodes]

theorem rb_nodes_context {t : RbTree} {k : Context NodeAddr} {p : Ptr}
    (rep : RepContext t k p) : t.rbNodes (fatherPtr k) (position k) = some p := by
  cases k with
  | nil => exact congrArg some rep
  | cons f k =>
    have cell := rep.1
    cases hd : f.dir <;>
      simp [RbTree.rbNodes, fatherPtr, position, RbTree.deref, cell, hd, rbNode, RbNode.rbNodes]

theorem RepContext.fill {t : RbTree} {k : Context NodeAddr} {p q : Ptr}
    (rep : RepContext t k p) (nodup : (before k ++ after k).Nodup) :
    RepContext (t.fill k q) k q := by
  cases k with
  | nil => rfl
  | cons f k =>
    obtain ⟨cell, sibling, context⟩ := rep
    -- the nearest node of the context is neither in its sibling nor further up
    have whole : (plug k (.build f.color f.dir .leaf f.elem f.sibling)).inorder.Nodup := by
      rw [← plug_cons, inorder_plug]
      simpa [ColorTree.inorder] using nodup
    obtain ⟨-, hs, apart⟩ := nodup_plug.mp whole
    have hsib : f.elem ∉ f.sibling.inorder := by
      cases hd : f.dir <;> simp [hd, ColorTree.build, ColorTree.inorder, List.nodup_append] at hs
      · exact hs.1
      · exact fun h => hs.2 _ h rfl
    have hctx : ¬ InContext f.elem k := by
      refine apart f.elem ?_
      cases f.dir <;> simp [ColorTree.build, ColorTree.inorder]
    refine ⟨store_nodes_self .., sibling.congr ?_, RepContext.congr (store_root t _ _) ?_ context⟩
    · intro a ha
      exact store_nodes_of_ne t _ (fun h => hsib (h ▸ ha))
    · intro a ha
      exact store_nodes_of_ne t _ (fun h => hctx (h ▸ ha))

end Nebase.Compat.Rbtree
