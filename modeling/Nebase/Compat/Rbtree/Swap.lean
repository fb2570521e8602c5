/- The removal of a node with two children, in memory: its standin leaves its own place, adopts
   the two children and takes the place of the node. -/

import Nebase.Compat.Rbtree.Unlink

set_option autoImplicit false
set_option relaxedAutoImplicit false

namespace Nebase.Compat.Rbtree

open Nebase.Foundation.RedBlack

/-- `s` becomes the father of a subtree. -/
theorem adopt {t : RbTree} {s : NodeAddr} {m : RbNode} {d : Dir} {x : ColorTree NodeAddr} {f : Ptr}
    (cellS : t.nodes s = some m) (rep : RepTree t.nodes f d x) (hx : x ≠ .leaf)
    (nodup : x.inorder.Nodup) (hs : s ∉ x.inorder) :
    ∃ t1 t2, t.setRbNodes (.node s) d (ptr x) = some t1 ∧
      t1.rbSetFather (ptr x) (.node s) = some t2 ∧ t2.rbtRoot = t.rbtRoot ∧
      t2.rbtMinmax = t.rbtMinmax ∧ t2.nodes s = some (m.setRbNodes d (ptr x)) ∧
      RepTree t2.nodes (.node s) d x ∧
      ∀ e, e ≠ s → e ∉ x.inorder → t2.nodes e = t.nodes e := by
  cases x with
  | leaf => exact absurd rfl hx
  | node c l b r =>
    have hb : b ∈ (ColorTree.node c l b r).inorder := by simp [ColorTree.inorder]
    have hsb : s ≠ b := fun h => hs (h ▸ hb)
    obtain ⟨t1, ht1⟩ : ∃ t1, t1 = t.store s (m.setRbNodes d (.node b)) := ⟨_, rfl⟩
    have cellB : t1.nodes b = some ⟨ptr l, ptr r, f, d, c⟩ := by
      rw [ht1, store_nodes_of_ne _ _ hsb.symm]
      exact rep.1
    refine ⟨t1, t1.store b ⟨ptr l, ptr r, .node s, d, c⟩, ?_, ?_, by rw [ht1]; rfl,
      by rw [ht1]; rfl, ?_, ?_, ?_⟩
    · rw [ht1]
      simp [cellS]
    · simp [RbTree.rbSetFather, cellB]
    · rw [store_nodes_of_ne _ _ hsb, ht1, store_nodes_self, ptr_node]
    · refine rep.reparent nodup (store_nodes_self ..) (fun e he heb => ?_)
      rw [store_nodes_of_ne _ _ heb, ht1]
      exact store_nodes_of_ne _ _ (fun h => hs (h ▸ he))
    · intro e hes he
      have heb : e ≠ b := fun h => he (h ▸ hb)
      rw [store_nodes_of_ne _ _ heb, ht1, store_nodes_of_ne _ _ hes]

section Sever

variable {t : RbTree} {k : Context NodeAddr} {w : Dir} {c : Color} {s : NodeAddr}
  {son : ColorTree NodeAddr}

theorem standin_apart (nodup : (plug k (.build c w son s .leaf)).inorder.Nodup) :
    s ∉ (plug k son).inorder ∧ (plug k son).inorder.Nodup := by
  obtain ⟨nodupK, nodupS, apart⟩ := nodup_plug.mp nodup
  have mem : ∀ e, e ∈ (ColorTree.build c w son s .leaf).inorder ↔ e = s ∨ e ∈ son.inorder := by
    intro e
    cases w with
    | left => simp [ColorTree.build, ColorTree.inorder, or_comm]
    | right => simp [ColorTree.build, ColorTree.inorder]
  have distinct : s ∉ son.inorder ∧ son.inorder.Nodup := by
    cases w <;>
      simp only [ColorTree.build, ColorTree.inorder, List.nodup_append,
        List.nodup_cons] at nodupS <;>
      grind
  refine ⟨?_, nodup_plug.mpr ⟨nodupK, distinct.2, fun e he => apart e ((mem e).mpr (.inr he))⟩⟩
  rw [mem_inorder_plug, not_or]
  exact ⟨distinct.1, apart s ((mem s).mpr (.inl rfl))⟩

/-- A standin without a son leaves its place. -/
theorem sever_leaf (rep : Represents t k (.build c w .leaf s .leaf)) :
    ∃ t', t.setRbNodes (fatherPtr k) (position k) .null = some t' ∧ Represents t' k .leaf ∧
      t'.rbtMinmax = t.rbtMinmax ∧ ∀ e, ¬ InContext e k → t'.nodes e = t.nodes e := by
  have rep' : Represents t k (.node c .leaf s .leaf) := by
    cases w <;> exact rep
  obtain ⟨cut, rep1, -⟩ := cut_leaf rep'
  exact ⟨_, cut, rep1, fill_minmax .., fun e he => fill_nodes he⟩

/-- A standin with a red son leaves its place to the son, which turns black. -/
theorem sever_son (rep : Represents t k (.build c w son s .leaf)) (hson : son ≠ .leaf) :
    ∃ t1 t2 t3 t4, t.rbMark (ptr son) .black = some t1 ∧
      t1.rbSetFather (ptr son) (fatherPtr k) = some t2 ∧
      t2.rbSetPosition (ptr son) (position k) = some t3 ∧
      t3.setRbNodes (fatherPtr k) (position k) (ptr son) = some t4 ∧
      Represents t4 k (son.paint .black) ∧ t4.rbtMinmax = t.rbtMinmax ∧
      ∀ e, e ∉ son.inorder → ¬ InContext e k → t4.nodes e = t.nodes e := by
  obtain ⟨hs, nodup⟩ := standin_apart rep.nodup
  obtain ⟨nodupK, nodupS, apart⟩ := nodup_plug.mp nodup
  obtain ⟨-, repSon, -⟩ := rep_tree_build.mp rep.tree
  cases son with
  | leaf => exact absurd rfl hson
  | node sc l b r =>
    have hb : b ∈ (ColorTree.node sc l b r).inorder := by simp [ColorTree.inorder]
    have hbk : ¬ InContext b k := apart b hb
    obtain ⟨t3, ht3⟩ : ∃ t3, t3 = ((t.store b ⟨ptr l, ptr r, .node s, w, .black⟩).store b
        ⟨ptr l, ptr r, fatherPtr k, w, .black⟩).store b
        ⟨ptr l, ptr r, fatherPtr k, position k, .black⟩ := ⟨_, rfl⟩
    have same3 : ∀ e, e ≠ b → t3.nodes e = t.nodes e := by
      intro e he
      rw [ht3, store_nodes_of_ne _ _ he, store_nodes_of_ne _ _ he, store_nodes_of_ne _ _ he]
    have context3 : RepContext t3 k (.node s) := by
      refine RepContext.congr (by rw [ht3]; rfl) (fun e he => same3 e ?_)
        (by simpa using rep.context)
      rintro rfl
      exact hbk he
    refine ⟨_, _, t3, t3.fill k (.node b), by simp [RbTree.rbMark, repSon.1]; rfl,
      by simp [RbTree.rbSetFather]; rfl, by simp [RbTree.rbSetPosition, ht3],
      set_rb_nodes_context context3, ⟨context3.fill nodupK, ?_, ?_⟩, ?_, ?_⟩
    · refine repSon.reparent nodupS ?_ (fun e he heb => ?_)
      · rw [fill_nodes hbk, ht3, store_nodes_self]
      · rw [fill_nodes (apart e he), same3 e heb]
    · rw [inorder_plug, ColorTree.inorder_paint, ← inorder_plug]
      exact nodup
    · rw [fill_minmax, ht3]
      rfl
    · intro e he hk
      have heb : e ≠ b := fun h => he (h ▸ hb)
      rw [fill_nodes hk, same3 e heb]

/-- What happens to the son and to the place of a standin that is not a child of the node. -/
theorem sever {g : Frame NodeAddr} (rep : Represents t (g :: k) (.build c w son s .leaf))
    (hson : son = .leaf ∨ son.color = .red) :
    ∃ t3 t4, (if son.color = .red then
          (t.rbMark (ptr son) .black).bind (fun t =>
            (t.rbSetFather (ptr son) (.node g.elem)).bind (fun t =>
              (t.rbSetPosition (ptr son) g.dir).bind (fun t => some (t, false))))
        else some (t, decide (c = .black))) =
        some (t3, decide (c = .black ∧ son.color = .black)) ∧
      t3.setRbNodes (.node g.elem) g.dir (ptr son) = some t4 ∧
      Represents t4 (g :: k) (son.paint .black) ∧ t4.rbtMinmax = t.rbtMinmax ∧
      ∀ e, e ∉ son.inorder → ¬ InContext e (g :: k) → t4.nodes e = t.nodes e := by
  rcases hson with rfl | hred
  · obtain ⟨t4, cut, rep4, minmax4, same4⟩ := sever_leaf rep
    exact ⟨t, t4, by simp, cut, rep4, minmax4, fun e _ he => same4 e he⟩
  · obtain ⟨t1, t2, t3, t4, eval1, eval2, eval3, eval4, rep4, minmax4, same4⟩ :=
      sever_son rep (ColorTree.ne_leaf_of_red hred)
    simp only [fatherPtr, position] at eval2 eval3 eval4
    exact ⟨t3, t4, by simp [hred, eval1, eval2, eval3], eval4, rep4, minmax4, same4⟩

end Sever

section Swap

variable {t : RbTree} {k : Context NodeAddr} {w : Dir} {c sc : Color} {a s : NodeAddr}
  {son y : ColorTree NodeAddr}

/-- What is apart from what below a node. -/
theorem children_apart {x : ColorTree NodeAddr}
    (nodup : (plug k (.build c w x a y)).inorder.Nodup) :
    x.inorder.Nodup ∧ y.inorder.Nodup ∧ a ∉ x.inorder ∧ a ∉ y.inorder ∧
      (∀ e ∈ x.inorder, e ∉ y.inorder) ∧ ¬ InContext a k ∧
      (∀ e ∈ x.inorder, ¬ InContext e k) ∧ ∀ e ∈ y.inorder, ¬ InContext e k := by
  obtain ⟨-, nodupS, apart⟩ := nodup_plug.mp nodup
  have mem : ∀ e, e ∈ (ColorTree.build c w x a y).inorder ↔
      e = a ∨ e ∈ x.inorder ∨ e ∈ y.inorder := by
    intro e
    cases w <;>
      simp only [ColorTree.build, ColorTree.inorder, List.mem_append, List.mem_cons] <;>
      tauto
  have distinct : x.inorder.Nodup ∧ y.inorder.Nodup ∧ a ∉ x.inorder ∧ a ∉ y.inorder ∧
      ∀ e ∈ x.inorder, e ∉ y.inorder := by
    cases w <;>
      simp only [ColorTree.build, ColorTree.inorder, List.nodup_append,
        List.nodup_cons] at nodupS <;>
      grind
  obtain ⟨hx, hy, hax, hay, hxy⟩ := distinct
  exact ⟨hx, hy, hax, hay, hxy, apart a ((mem a).mpr (.inl rfl)),
    fun e he => apart e ((mem e).mpr (.inr (.inl he))),
    fun e he => apart e ((mem e).mpr (.inr (.inr he)))⟩

/-- The removal takes `a` out and nothing else. -/
theorem swap_perm (inner : Context NodeAddr) (d : Dir) :
    (plug (inner ++ ⟨w, c, a, y⟩ :: k) (.build sc d son s .leaf)).inorder.Perm
      (a :: (plug (inner ++ ⟨w, c, s, y⟩ :: k) son).inorder) := by
  rw [List.perm_iff_count]
  intro e
  rw [inorder_plug, inorder_plug, before_append, before_append, after_append, after_append]
  cases w <;> cases d <;>
    simp only [before, after, ColorTree.build, ColorTree.inorder, List.count_append,
      List.count_cons, List.count_nil] <;>
    omega

/-- The colour of the standin's son is settled first. -/
theorem settle_son {d : Dir} {son : ColorTree NodeAddr}
    (rep : Represents t k (.build sc d son s .leaf)) (hson : son = .leaf ∨ son.color = .red) :
    ∃ t1, (son.color = .red → t.rbMark (ptr son) .black = some t1) ∧ (son = .leaf → t1 = t) ∧
      Represents t1 k (.build sc d (son.paint .black) s .leaf) ∧
      Writes t t1 (plug k (.build sc d son s .leaf)).inorder := by
  rcases hson with rfl | hred
  · exact ⟨t, fun h => absurd h (by simp), fun _ => rfl, rep, Writes.refl _ _⟩
  · obtain ⟨t1, eval, rep1, writes⟩ := rb_mark_paint .black
      (represents_cons.mpr rep : Represents t (⟨d, sc, s, .leaf⟩ :: k) son)
      (ColorTree.ne_leaf_of_red hred)
    refine ⟨t1, fun _ => eval, ?_, represents_cons.mp rep1, writes⟩
    rintro rfl
    cases hred

/-- The standin is a child of the node. -/
theorem swap_child (fuel : Nat)
    (rep : Represents t k (.build c w (.build sc w son s .leaf) a y)) (hy : y ≠ .leaf)
    (hson : son = .leaf ∨ son.color = .red) (inner : t.rbtMinmax (position k) ≠ .node a) :
    ∃ t', rbTreeSwapPruneAndRebalance fuel t (.node a) (.node s) =
        (if sc = .black ∧ son.color = .black then
          rbTreeRemovalRebalance fuel t' (.node s) w else some t') ∧
      Represents t' (⟨w, c, s, y⟩ :: k) (son.paint .black) ∧ t'.rbtMinmax = t.rbtMinmax ∧
      (t'.nodes a).isSome = true ∧
      ∀ e, e ∉ (plug k (.build c w (.build sc w son s .leaf) a y)).inorder →
        t'.nodes e = t.nodes e := by
  have whole : (a :: (plug (⟨w, c, s, y⟩ :: k) son).inorder).Nodup :=
    (swap_perm [] w).nodup_iff.mp rep.nodup
  obtain ⟨apartA, nodup⟩ := List.nodup_cons.mp whole
  have rep0 : Represents t (⟨w, c, a, y⟩ :: k) (.build sc w son s .leaf) := represents_cons.mpr rep
  obtain ⟨t1, mark, same, rep1, writes1⟩ := settle_son rep0 hson
  have rep1' : Represents t1 k (.build c w (.build sc w (son.paint .black) s .leaf) a y) :=
    represents_cons.mp rep1
  obtain ⟨nodupX, nodupY, hax, hay, hxy, hak, hxk, hyk⟩ := children_apart rep1'.nodup
  obtain ⟨cellA, repX, repY⟩ := rep_tree_build.mp rep1'.tree
  obtain ⟨cellS, repSon, -⟩ := rep_tree_build.mp repX
  have memX : ∀ e, e ∈ (ColorTree.build sc w (son.paint .black) s .leaf).inorder ↔
      e = s ∨ e ∈ son.inorder := by
    intro e
    cases w with
    | left => simp [ColorTree.build, ColorTree.inorder, or_comm]
    | right => simp [ColorTree.build, ColorTree.inorder]
  have memS := (memX s).mpr (.inl rfl)
  have hsson : s ∉ son.inorder := by
    have h := (children_apart (c := sc) (w := w) (a := s) (y := .leaf) rep1.nodup).2.2.1
    simpa using h
  -- the brother of the standin is adopted
  obtain ⟨t2, t3, eval2, eval3, root3, minmax3, cellS3, repY3, same3⟩ :=
    adopt cellS repY hy nodupY (hxy s memS)
  rw [rb_node_set_far] at cellS3
  have hne : ∀ e, e ∈ son.inorder → e ≠ s ∧ e ∉ y.inorder := fun e he =>
    ⟨fun h => hsson (h ▸ he), hxy e ((memX e).mpr (.inr he))⟩
  have repSon3 : RepTree t3.nodes (.node s) w (son.paint .black) :=
    repSon.congr (fun e he => by
      rw [ColorTree.inorder_paint] at he
      exact same3 e (hne e he).1 (hne e he).2)
  have context3 : RepContext t3 k (.node a) := by
    refine RepContext.congr root3 (fun e he => same3 e ?_ ?_) (by simpa using rep1'.context)
    · rintro rfl
      exact hxk e memS he
    · exact fun h => hyk e h he
  have has : a ≠ s := fun h => hax (h ▸ memS)
  have cellA3 := (same3 a has hay).trans cellA
  -- and takes the place of its father
  have order : (plug k (.build c w (son.paint .black) s y)).inorder =
      (plug (⟨w, c, s, y⟩ :: k) son).inorder := by
    rw [← plug_cons ⟨w, c, s, y⟩, inorder_plug, ColorTree.inorder_paint, ← inorder_plug]
  obtain ⟨t4, t5, t6, t7, copy, father4, eval5, position5, eval6, minmax6, eval7, rep7, minmax7,
    alloc7, same7⟩ := take_place (c := c) context3 cellA3 (by simp) (by simp) (by simp) cellS3
      repSon3 repY3 (by rwa [order]) (by rwa [order])
  have minmax : t7.rbtMinmax = t.rbtMinmax := by
    rw [minmax7, minmax3, writes1.minmax]
  refine ⟨t7, ?_, represents_cons.mpr rep7, minmax, alloc7, ?_⟩
  · obtain ⟨-, repX0, -⟩ := rep_tree_build.mp rep.tree
    obtain ⟨cellS0, repSon0, -⟩ := rep_tree_build.mp repX0
    have which : t.rbPosition (.node s) = some w := by simp [RbTree.rbPosition, cellS0]
    have father : t.rbFather (.node s) = some (.node a) := by simp [RbTree.rbFather, cellS0]
    have color : t.rbColor (.node s) = some sc := by simp [RbTree.rbColor, cellS0]
    have sonPtr : t.rbNodes (.node s) w = some (ptr son) := by simp [cellS0]
    have sonColor := rb_color_ptr repSon0
    have choice : (if son.color = .red then
          (t.rbMark (ptr son) .black).bind (fun t => some (t, false))
        else some (t, decide (sc = .black))) =
        some (t1, decide (sc = .black ∧ son.color = .black)) := by
      rcases hson with rfl | hred
      · simp [same rfl]
      · simp [hred, mark hred]
    have brother : t1.rbNodes (.node a) w.other = some (ptr y) := by
      rw [rb_nodes_node, cellA]
      simp
    have inner6 : ¬ t6.rbtMinmax (position k) = .node a := by
      rw [minmax6, minmax3, writes1.minmax]
      exact inner
    rw [rbTreeSwapPruneAndRebalance, bind_of_eq which]
    dsimp only
    rw [bind_of_eq father, bind_of_eq color, if_pos rfl, bind_of_eq sonPtr, bind_of_eq sonColor]
    simp only [if_true]
    refine (bind_of_eq choice).trans ?_
    refine (bind_of_eq rfl).trans ?_
    dsimp only
    rw [bind_of_eq brother, bind_of_eq eval2, bind_of_eq eval3, bind_of_eq copy,
      bind_of_eq father4, bind_of_eq eval5, bind_of_eq position5, bind_of_eq eval6]
    simp only [inner6, if_false]
    rw [bind_of_eq eval7]
    simp only [decide_eq_true_eq]
  · intro e he
    have mem : e ∉ a :: (plug (⟨w, c, s, y⟩ :: k) son).inorder :=
      fun h => he ((swap_perm [] w).mem_iff.mpr h)
    rw [List.mem_cons, not_or] at mem
    have hout := writes1.outside e he
    rw [← order] at mem
    have hes : e ≠ s ∧ e ∉ y.inorder := by
      have := mem.2
      rw [mem_inorder_plug, not_or] at this
      cases w <;>
        simp only [ColorTree.build, ColorTree.inorder, List.mem_append, List.mem_cons,
          not_or] at this <;>
        tauto
    exact (same7 e mem.1 mem.2).trans ((same3 e hes.1 hes.2).trans hout)

/-- The standin is further down. -/
theorem swap_far {g : Frame NodeAddr} {inner : Context NodeAddr} (fuel : Nat)
    (rep : Represents t (g :: inner ++ ⟨w, c, a, y⟩ :: k) (.build sc w son s .leaf))
    (hg : g.dir = w.other) (hy : y ≠ .leaf) (hson : son = .leaf ∨ son.color = .red)
    (apart : t.rbtMinmax (position k) ≠ .node a) :
    ∃ t', rbTreeSwapPruneAndRebalance fuel t (.node a) (.node s) =
        (if sc = .black ∧ son.color = .black then
          rbTreeRemovalRebalance fuel t' (.node g.elem) g.dir else some t') ∧
      Represents t' (g :: inner ++ ⟨w, c, s, y⟩ :: k) (son.paint .black) ∧
      t'.rbtMinmax = t.rbtMinmax ∧ (t'.nodes a).isSome = true ∧
      ∀ e, e ∉ (plug (g :: inner ++ ⟨w, c, a, y⟩ :: k) (.build sc w son s .leaf)).inorder →
        t'.nodes e = t.nodes e := by
  have whole : (a :: (plug (g :: inner ++ ⟨w, c, s, y⟩ :: k) son).inorder).Nodup :=
    (swap_perm (g :: inner) w).nodup_iff.mp rep.nodup
  obtain ⟨apartA, nodup⟩ := List.nodup_cons.mp whole
  obtain ⟨hsK, -⟩ := standin_apart rep.nodup
  obtain ⟨t3, t4, choice, cut, rep4, minmax4, same4⟩ := sever rep hson
  -- the node with the standin gone
  obtain ⟨x, hx⟩ : ∃ x, x = plug (g :: inner) (son.paint .black) := ⟨_, rfl⟩
  have rep4' : Represents t4 k (.build c w x a y) := by
    have rep5 : Represents t4 ((g :: inner) ++ ⟨w, c, a, y⟩ :: k) (son.paint .black) := rep4
    rw [hx]
    exact represents_cons.mp (represents_append.mp rep5)
  have hxleaf : x ≠ .leaf := hx ▸ plug_ne_leaf (.inl (List.cons_ne_nil g inner))
  obtain ⟨nodupX, nodupY, hax, hay, hxy, hak, hxk, hyk⟩ := children_apart rep4'.nodup
  obtain ⟨cellA, repX, repY⟩ := rep_tree_build.mp rep4'.tree
  have order : (plug k (.build c w x s y)).inorder =
      (plug (g :: inner ++ ⟨w, c, s, y⟩ :: k) son).inorder := by
    rw [hx, plug_append, ← plug_cons ⟨w, c, s, y⟩]
    exact inorder_plug_congr (inorder_plug_congr (ColorTree.inorder_paint _ _))
  rw [← order] at apartA nodup
  obtain ⟨-, -, hsx, hsy, -, hsk, -, -⟩ := children_apart nodup
  have has : a ≠ s := by
    rintro rfl
    refine apartA (mem_inorder_plug.mpr (.inl ?_))
    cases w <;> simp [ColorTree.build, ColorTree.inorder]
  have cellS0 : t.nodes s = some (rbNode w (ptr son) .null (.node g.elem) g.dir sc) :=
    (rep_tree_build.mp rep.tree).1
  have cellS : t4.nodes s = some (rbNode w (ptr son) .null (.node g.elem) g.dir sc) := by
    rw [mem_inorder_plug, not_or] at hsK
    exact (same4 s hsK.1 hsK.2).trans cellS0
  -- both children are adopted
  obtain ⟨t5, t6, eval5, eval6, root6, minmax6, cellS6, repX6, same6⟩ :=
    adopt cellS repX hxleaf nodupX hsx
  rw [rb_node_set_near] at cellS6
  have repY6 : RepTree t6.nodes (.node a) w.other y :=
    repY.congr (fun e he => same6 e (fun h => hsy (h ▸ he)) (fun h => hxy e h he))
  obtain ⟨t7, t8, eval7, eval8, root8, minmax8, cellS8, repY8, same8⟩ :=
    adopt cellS6 repY6 hy nodupY hsy
  rw [rb_node_set_far] at cellS8
  have repX8 : RepTree t8.nodes (.node s) w x :=
    repX6.congr (fun e he => same8 e (fun h => hsx (h ▸ he)) (hxy e he))
  have same48 : ∀ e, e ≠ s → e ∉ x.inorder → e ∉ y.inorder → t8.nodes e = t4.nodes e :=
    fun e hs hx hy => (same8 e hs hy).trans (same6 e hs hx)
  have context8 : RepContext t8 k (.node a) := by
    refine RepContext.congr (root8.trans root6) (fun e he => same48 e ?_ ?_ ?_)
      (by simpa using rep4'.context)
    · rintro rfl
      exact hsk he
    · exact fun h => hxk e h he
    · exact fun h => hyk e h he
  have cellA8 := (same48 a has hax hay).trans cellA
  -- and the standin takes its place
  obtain ⟨t9, t10, t11, t12, copy, father9, eval10, position10, eval11, minmax11, eval12, rep12,
    minmax12, alloc12, same12⟩ := take_place (c := c) context8 cellA8 (by simp) (by simp) (by simp)
      cellS8 repX8 repY8 nodup apartA
  have minmax : t8.rbtMinmax = t.rbtMinmax := by
    rw [minmax8, minmax6, minmax4]
  refine ⟨t12, ?_, ?_, minmax12.trans minmax, alloc12, ?_⟩
  · have which : t.rbPosition (.node s) = some g.dir := by simp [RbTree.rbPosition, cellS0]
    have father : t.rbFather (.node s) = some (.node g.elem) := by simp [RbTree.rbFather, cellS0]
    have color : t.rbColor (.node s) = some sc := by simp [RbTree.rbColor, cellS0]
    have other : g.dir.other = w := by rw [hg, other_other]
    have sonPtr : t.rbNodes (.node s) w = some (ptr son) := by simp [cellS0]
    have sonColor := rb_color_ptr (rep_tree_build.mp rep.tree).2.1
    have hga : ¬ Ptr.node g.elem = .node a := by
      intro h
      obtain rfl := Ptr.node.inj h
      refine hax ?_
      rw [hx, mem_inorder_plug]
      exact .inr (in_context_cons.mpr (.inl rfl))
    have far4 : t4.rbNodes (.node a) w = some (ptr x) := by
      rw [rb_nodes_node, cellA]
      simp
    have cellA6 := (same6 a has hax).trans cellA
    have near6 : t6.rbNodes (.node a) g.dir = some (ptr y) := by
      rw [rb_nodes_node, cellA6, hg]
      simp
    rw [← hg] at eval7
    have inner11 : ¬ t11.rbtMinmax (position k) = .node a := by
      rw [minmax11, minmax]
      exact apart
    rw [rbTreeSwapPruneAndRebalance, bind_of_eq which]
    dsimp only
    rw [bind_of_eq father, bind_of_eq color, if_neg hga, other, bind_of_eq sonPtr,
      bind_of_eq sonColor]
    simp only [hga, if_false]
    refine (bind_of_eq choice).trans ?_
    rw [bind_of_eq cut, bind_of_eq far4, bind_of_eq eval5, bind_of_eq eval6]
    refine (bind_of_eq rfl).trans ?_
    dsimp only
    rw [bind_of_eq near6, bind_of_eq eval7, bind_of_eq eval8, bind_of_eq copy,
      bind_of_eq father9, bind_of_eq eval10, bind_of_eq position10, bind_of_eq eval11]
    simp only [inner11, if_false]
    rw [bind_of_eq eval12]
    simp only [decide_eq_true_eq]
  · refine represents_append.mpr ?_
    rw [← hx]
    exact represents_cons.mpr rep12
  · intro e he
    have mem : e ∉ a :: (plug (g :: inner ++ ⟨w, c, s, y⟩ :: k) son).inorder :=
      fun h => he ((swap_perm (g :: inner) w).mem_iff.mpr h)
    rw [List.mem_cons, not_or, ← order] at mem
    have apart' : e ≠ s ∧ e ∉ x.inorder ∧ e ∉ y.inorder := by
      have := mem.2
      rw [mem_inorder_plug, not_or] at this
      cases w <;>
        simp only [ColorTree.build, ColorTree.inorder, List.mem_append, List.mem_cons,
          not_or] at this <;>
        tauto
    have out4 : t4.nodes e = t.nodes e := by
      rw [mem_inorder_plug, not_or] at he
      refine same4 e (fun h => he.1 ?_) he.2
      cases w <;> simp [ColorTree.build, ColorTree.inorder, h]
    exact (same12 e mem.1 mem.2).trans ((same48 e apart'.1 apart'.2.1 apart'.2.2).trans out4)

end Swap

end Nebase.Compat.Rbtree
