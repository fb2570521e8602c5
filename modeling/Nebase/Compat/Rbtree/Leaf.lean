/- A new leaf is linked into the tree in memory, and `rbt_minmax` follows. -/

import Nebase.Compat.Rbtree.Search

set_option autoImplicit false
set_option relaxedAutoImplicit false

namespace Nebase.Compat.Rbtree

open Nebase.Foundation.RedBlack

/-- `rbt_minmax` holds the two ends of a list that is not empty. -/
def MinmaxOf (minmax : Dir → Ptr) (xs : List NodeAddr) : Prop :=
  xs ≠ [] → ∀ d, minmax d = toPtr (endOf d xs)

theorem Represents.nodup_context {t : RbTree} {k : Context NodeAddr} {s : ColorTree NodeAddr}
    (rep : Represents t k s) : (before k ++ after k).Nodup := (nodup_plug.mp rep.nodup).1

/-- The two sides of a context below a father. -/
theorem around_father (f : Frame NodeAddr) (k : Context NodeAddr) :
    (f.dir = .left ∧ ∃ zs, after (f :: k) = f.elem :: zs) ∨
      (f.dir = .right ∧ ∃ ys, before (f :: k) = ys ++ [f.elem]) := by
  cases hd : f.dir with
  | left => exact .inl ⟨rfl, f.sibling.inorder ++ after k, by simp [after, hd]⟩
  | right => exact .inr ⟨rfl, before k ++ f.sibling.inorder, by simp [before, hd]⟩

theorem end_right_concat (xs : List NodeAddr) (a : NodeAddr) :
    endOf .right (xs ++ [a]) = some a := List.getLast?_concat

theorem end_right_last (ys zs : List NodeAddr) (a : NodeAddr) :
    endOf .right (ys ++ (zs ++ [a])) = some a := by
  rw [← List.append_assoc]
  exact end_right_concat _ _

theorem end_left_append {ys : List NodeAddr} (zs : List NodeAddr) (h : ys ≠ []) :
    endOf .left (ys ++ zs) = endOf .left ys := List.head?_append_of_ne_nil ys h

theorem end_right_append (ys : List NodeAddr) {zs : List NodeAddr} (h : zs ≠ []) :
    endOf .right (ys ++ zs) = endOf .right zs := List.getLast?_append_of_ne_nil ys h

section Ends

variable {minmax : Dir → Ptr} {ys zs : List NodeAddr} {a p : NodeAddr}

theorem minmax_insert_left (nodup : (ys ++ p :: zs).Nodup)
    (ends : MinmaxOf minmax (ys ++ p :: zs)) :
    MinmaxOf (if Ptr.node p = minmax .left then Function.update minmax .left (.node a) else minmax)
      (ys ++ a :: p :: zs) := by
  rintro - d
  have left := ends (by simp) .left
  have right := ends (by simp) .right
  have last : endOf .right (ys ++ a :: p :: zs) = endOf .right (ys ++ p :: zs) := by
    simp [endOf, List.getLast?_append]
  cases ys with
  | nil =>
    rw [left]
    cases d with
    | left => simp [endOf]
    | right => simpa [last, endOf] using right
  | cons b ys =>
    have hne : p ≠ b := by
      rintro rfl
      simp at nodup
    rw [left, if_neg (by simpa [endOf] using hne)]
    cases d with
    | left => exact left
    | right => rw [last, right]

theorem minmax_insert_right (nodup : (ys ++ p :: zs).Nodup)
    (ends : MinmaxOf minmax (ys ++ p :: zs)) :
    MinmaxOf (if Ptr.node p = minmax .right then Function.update minmax .right (.node a)
      else minmax) (ys ++ p :: a :: zs) := by
  rintro - d
  have left := ends (by simp) .left
  have right := ends (by simp) .right
  have first : endOf .left (ys ++ p :: a :: zs) = endOf .left (ys ++ p :: zs) := by
    cases ys <;> rfl
  rcases List.eq_nil_or_concat' zs with rfl | ⟨zs, b, rfl⟩
  · rw [end_right_concat, to_ptr_some] at right
    rw [right, if_pos rfl]
    cases d with
    | left => rw [Function.update_of_ne (by decide), left, first]
    | right => simp [endOf]
  · have hne : p ≠ b := by
      rintro rfl
      simp [List.nodup_append] at nodup
    have hlast : endOf .right (ys ++ p :: (zs ++ [b])) = some b := end_right_last ys (p :: zs) b
    rw [hlast] at right
    rw [right, if_neg (by simpa using hne)]
    cases d with
    | left => rw [left, first]
    | right => exact right.trans (congrArg toPtr (end_right_last ys (p :: a :: zs) b).symm)

theorem minmax_remove_left (nodup : (ys ++ a :: p :: zs).Nodup)
    (ends : MinmaxOf minmax (ys ++ a :: p :: zs)) :
    MinmaxOf (if minmax .left = .node a then Function.update minmax .left (.node p) else minmax)
      (ys ++ p :: zs) := by
  rintro - d
  have left := ends (by simp) .left
  have right := ends (by simp) .right
  have last : endOf .right (ys ++ a :: p :: zs) = endOf .right (ys ++ p :: zs) := by
    simp [endOf, List.getLast?_append]
  cases ys with
  | nil =>
    rw [left]
    cases d with
    | left => simp [endOf]
    | right => simpa [last, endOf] using right
  | cons b ys =>
    have hne : b ≠ a := by
      rintro rfl
      simp at nodup
    rw [left, if_neg (by simpa [endOf] using hne)]
    cases d with
    | left => exact left
    | right => rw [← last, right]

theorem minmax_remove_right (nodup : (ys ++ p :: a :: zs).Nodup)
    (ends : MinmaxOf minmax (ys ++ p :: a :: zs)) :
    MinmaxOf (if minmax .right = .node a then Function.update minmax .right (.node p) else minmax)
      (ys ++ p :: zs) := by
  rintro - d
  have left := ends (by simp) .left
  have right := ends (by simp) .right
  have first : endOf .left (ys ++ p :: a :: zs) = endOf .left (ys ++ p :: zs) := by
    cases ys <;> rfl
  rcases List.eq_nil_or_concat' zs with rfl | ⟨zs, b, rfl⟩
  · have hlast : endOf .right (ys ++ [p, a]) = some a := end_right_last ys [p] a
    rw [hlast, to_ptr_some] at right
    rw [right, if_pos rfl]
    cases d with
    | left => rw [Function.update_of_ne (by decide), left, first]
    | right => simp [endOf]
  · have hne : b ≠ a := by
      rintro rfl
      simp [List.nodup_append] at nodup
    have hlast : endOf .right (ys ++ p :: a :: (zs ++ [b])) = some b :=
      end_right_last ys (p :: a :: zs) b
    rw [hlast] at right
    rw [right, if_neg (by simpa using hne)]
    cases d with
    | left => rw [left, first]
    | right => exact right.trans (congrArg toPtr (end_right_last ys (p :: zs) b).symm)

theorem minmax_left_ne (nodup : (ys ++ a :: zs).Nodup) (ends : MinmaxOf minmax (ys ++ a :: zs))
    (h : ys ≠ []) : minmax .left ≠ .node a := by
  rw [ends (by simp) .left, end_left_append _ h]
  cases ys with
  | nil => exact absurd rfl h
  | cons b ys =>
    have hne : b ≠ a := by
      rintro rfl
      simp at nodup
    simpa [endOf] using hne

theorem minmax_right_ne (nodup : (ys ++ a :: zs).Nodup) (ends : MinmaxOf minmax (ys ++ a :: zs))
    (h : zs ≠ []) : minmax .right ≠ .node a := by
  rcases List.eq_nil_or_concat' zs with rfl | ⟨zs, b, rfl⟩
  · exact absurd rfl h
  · have hne : b ≠ a := by
      rintro rfl
      simp [List.nodup_append] at nodup
    have hlast : endOf .right (ys ++ a :: (zs ++ [b])) = some b := end_right_last ys (a :: zs) b
    rw [ends (by simp) .right, hlast]
    simpa using hne

/-- An element that is not at an end does not matter for the ends. -/
theorem minmax_remove_inner (ends : MinmaxOf minmax (ys ++ a :: zs)) (hy : ys ≠ [])
    (hz : zs ≠ []) : MinmaxOf minmax (ys ++ zs) := by
  rintro - d
  rw [ends (by simp) d]
  cases d with
  | left => rw [end_left_append _ hy, end_left_append _ hy]
  | right =>
    rw [end_right_append ys hz, end_right_append ys (List.cons_ne_nil a zs)]
    exact congrArg toPtr (end_right_append [a] hz)

end Ends

theorem nodup_insert {k : Context NodeAddr} {a : NodeAddr}
    (nodup : (before k ++ after k).Nodup) (fresh : ¬ InContext a k) {c : Color} :
    (plug k (.node c .leaf a .leaf)).inorder.Nodup := by
  refine nodup_plug.mpr ⟨nodup, by simp [ColorTree.inorder], ?_⟩
  intro e he
  obtain rfl : e = a := by simpa [ColorTree.inorder] using he
  exact fresh

/-- The last writes of the insertion: the node has no children, and its father points to it. -/
theorem link_leaf {t : RbTree} {k : Context NodeAddr} {a : NodeAddr} {n : RbNode}
    (context : RepContext t k .null) (nodup : (before k ++ after k).Nodup)
    (fresh : ¬ InContext a k) (cell : t.nodes a = some n) (father : n.father = fatherPtr k)
    (position' : n.position = position k) :
    ∃ t1 t2 t3, t.setRbNodes (.node a) .left .null = some t1 ∧
      t1.setRbNodes (.node a) .right .null = some t2 ∧
      t2.setRbNodes (fatherPtr k) (position k) (.node a) = some t3 ∧
      Represents t3 k (.node n.color .leaf a .leaf) ∧ t3.rbtMinmax = t.rbtMinmax ∧
      ∀ e, e ≠ a → ¬ InContext e k → t3.nodes e = t.nodes e := by
  have apart : ∀ e, InContext e k → e ≠ a := fun e he h => fresh (h ▸ he)
  obtain ⟨t2, ht2⟩ : ∃ t2, t2 = (t.store a (n.setRbNodes .left .null)).store a
      ((n.setRbNodes .left .null).setRbNodes .right .null) := ⟨_, rfl⟩
  have same : ∀ e, e ≠ a → t2.nodes e = t.nodes e := by
    intro e he
    simp [ht2, store_nodes, he]
  have context2 : RepContext t2 k .null :=
    RepContext.congr (by rw [ht2]; rfl) (fun e he => same e (apart e he)) context
  have slot := set_rb_nodes_context (q := .node a) context2
  have cell3 : (t2.fill k (.node a)).nodes a =
      some ⟨.null, .null, fatherPtr k, position k, n.color⟩ := by
    rw [fill_nodes fresh, ht2, store_nodes_self, ← father, ← position']
    rfl
  refine ⟨t.store a (n.setRbNodes .left .null), t2, t2.fill k (.node a), by simp [cell],
    by simp [ht2], slot, ⟨context2.fill nodup, ⟨cell3, trivial, trivial⟩,
      nodup_insert nodup fresh⟩, ?_, ?_⟩
  · rw [fill_minmax, ht2]
    rfl
  · intro e he hk
    rw [fill_nodes hk, same e he]

def RbTree.withMinmax (t : RbTree) (minmax : Dir → Ptr) : RbTree :=
  { t with rbtMinmax := minmax }

/-- The first writes of the insertion: father, position and colour of the new node. -/
theorem prepare_leaf {t : RbTree} {a : NodeAddr} {n : RbNode} (alloc : t.nodes a = some n)
    (father : Ptr) (d : Dir) (c : Color) :
    ∃ t1 t2, t.rbSetFather (.node a) father = some t1 ∧ t1.rbSetPosition (.node a) d = some t2 ∧
      t2.rbtRoot = t.rbtRoot ∧ t2.rbtMinmax = t.rbtMinmax ∧
      (∀ e, e ≠ a → t2.nodes e = t.nodes e) ∧
      ∀ minmax, ∃ t3, (t2.withMinmax minmax).rbMark (.node a) c = some t3 ∧
        t3.rbtRoot = t.rbtRoot ∧ t3.rbtMinmax = minmax ∧
        t3.nodes a = some ⟨n.rbLeft, n.rbRight, father, d, c⟩ ∧
        ∀ e, e ≠ a → t3.nodes e = t.nodes e := by
  refine ⟨t.store a { n with father := father }, (t.store a { n with father := father }).store a
    { n with father := father, position := d }, ?_, ?_, rfl, rfl, ?_, ?_⟩
  · simp [RbTree.rbSetFather, alloc]
  · simp [RbTree.rbSetPosition]
  · intro e he
    simp [store_nodes, he]
  · intro minmax
    refine ⟨(((t.store a { n with father := father }).store a
      { n with father := father, position := d }).withMinmax minmax).store a
        ⟨n.rbLeft, n.rbRight, father, d, c⟩, ?_, rfl, rfl, store_nodes_self .., ?_⟩
    · simp [RbTree.rbMark, RbTree.store, RbTree.withMinmax]
    · intro e he
      rw [store_nodes_of_ne _ _ he]
      simp [RbTree.withMinmax, store_nodes, he]

/-- A node that is ready becomes a leaf of the tree in memory. -/
theorem insert_leaf_spec {t : RbTree} {k : Context NodeAddr} {a : NodeAddr} {n : RbNode}
    {u : ColorTree NodeAddr} {fuel : Nat} (rep : Represents t k .leaf) (alloc : t.nodes a = some n)
    (fresh : ¬ InContext a k) (ends : MinmaxOf t.rbtMinmax (before k ++ after k))
    (hu : insertAt k a = some u) (enough : k.length ≤ fuel) :
    ∃ t', insertLeaf fuel t (.node a) (fatherPtr k) (position k) = some t' ∧
      Represents t' [] u ∧ MinmaxOf t'.rbtMinmax (before k ++ a :: after k) ∧
      ∀ e, e ≠ a → ¬ InContext e k → t'.nodes e = t.nodes e := by
  have apart : ∀ e, InContext e k → e ≠ a := fun e he h => fresh (h ▸ he)
  have nodup := rep.nodup_context
  cases k with
  | nil =>
    obtain rfl := Option.some.inj hu
    obtain ⟨t1, t2, eval1, eval2, root2, minmax2, same2, mark⟩ :=
      prepare_leaf alloc .slot .left .black
    obtain ⟨t3, eval3, root3, minmax3, cell3, same3⟩ := mark t2.rbtMinmax
    obtain ⟨t4, ht4⟩ : ∃ t4, t4 = (t3.setMinmax .left (.node a)).setMinmax .right (.node a) :=
      ⟨_, rfl⟩
    have context4 : RepContext t4 [] .null := by
      rw [ht4]
      exact root3.trans rep.context
    obtain ⟨t5, t6, t7, link5, link6, link7, rep7, minmax7, same7⟩ :=
      link_leaf context4 nodup fresh (by rw [ht4]; exact cell3) rfl rfl
    refine ⟨t7, ?_, rep7, ?_, ?_⟩
    · have sentinel := rb_nodes_context context4
      simp only [fatherPtr, position] at sentinel link7
      have mark2 : t2.rbMark (.node a) .black = some t3 := eval3
      simp only [insertLeaf, fatherPtr, position, eval1, eval2, mark2, ← ht4, sentinel, link5,
        link6, link7, if_true, Option.bind_eq_bind, Option.bind_some, Bool.false_eq_true, if_false]
    · rintro - d
      rw [minmax7, ht4]
      cases d <;> simp [RbTree.setMinmax, before, after, endOf]
    · intro e he hk
      rw [same7 e he hk, ht4]
      exact same3 e he
  | cons f k =>
    obtain ⟨t1, t2, eval1, eval2, root2, minmax2, same2, mark⟩ :=
      prepare_leaf alloc (.node f.elem) f.dir .red
    obtain ⟨t3, eval3, root3, minmax3, cell3, same3⟩ :=
      mark (if Ptr.node f.elem = t2.rbtMinmax f.dir then
        Function.update t2.rbtMinmax f.dir (.node a) else t2.rbtMinmax)
    have choice : (if Ptr.node f.elem = t2.rbtMinmax f.dir then t2.setMinmax f.dir (.node a)
        else t2) = t2.withMinmax (if Ptr.node f.elem = t2.rbtMinmax f.dir then
          Function.update t2.rbtMinmax f.dir (.node a) else t2.rbtMinmax) := by
      split_ifs <;> rfl
    have context3 : RepContext t3 (f :: k) .null :=
      RepContext.congr root3 (fun e he => same3 e (apart e he)) rep.context
    have color3 : t3.rbColor (.node f.elem) = some f.color := by
      simp [RbTree.rbColor, context3.1]
    obtain ⟨t5, t6, t7, link5, link6, link7, rep7, minmax7, same7⟩ :=
      link_leaf context3 nodup fresh cell3 rfl rfl
    have ends7 : MinmaxOf t7.rbtMinmax (before (f :: k) ++ a :: after (f :: k)) := by
      rw [minmax7, minmax3, minmax2]
      rcases around_father f k with ⟨hd, zs, haround⟩ | ⟨hd, ys, haround⟩
      · rw [haround] at ends nodup ⊢
        rw [hd]
        exact minmax_insert_left nodup ends
      · rw [haround, List.append_assoc] at ends nodup ⊢
        rw [hd]
        exact minmax_insert_right nodup ends
    have same : ∀ e, e ≠ a → ¬ InContext e (f :: k) → t7.nodes e = t.nodes e :=
      fun e he hk => (same7 e he hk).trans (same3 e he)
    have sentinel := rb_nodes_context context3
    simp only [fatherPtr, position] at sentinel link7
    have ne : Ptr.node f.elem ≠ .slot := by simp
    change ∃ t', insertLeaf fuel t (.node a) (.node f.elem) f.dir = some t' ∧ _
    simp only [insertLeaf, eval1, eval2, ne, choice, eval3, color3, sentinel, link5, link6, link7,
      if_false, Option.bind_eq_bind, Option.bind_some, decide_eq_true_eq]
    rw [insertAt] at hu
    by_cases hc : f.color = .red
    · rw [if_pos hc] at hu ⊢
      have father7 : t7.rbFather (.node a) = some (.node f.elem) := by
        simp [RbTree.rbFather, rep7.tree.1, fatherPtr]
      obtain ⟨t', eval, rep', writes⟩ :=
        insert_rebalance_loop_spec rep7 (by simp) hu enough
      refine ⟨t', ?_, rep', by rwa [writes.minmax], ?_⟩
      · simp only [rbTreeInsertRebalance, father7, Option.bind_eq_bind, Option.bind_some]
        exact eval
      · intro e he hk
        refine (writes.outside e ?_).trans (same e he hk)
        rw [mem_inorder_plug]
        simpa [ColorTree.inorder, he] using hk
    · rw [if_neg hc] at hu ⊢
      obtain rfl := Option.some.inj hu
      exact ⟨t7, rfl, represents_plug.mp rep7, ends7, same⟩

end Nebase.Compat.Rbtree
