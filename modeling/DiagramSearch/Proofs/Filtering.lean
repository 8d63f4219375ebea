/-
# Which dominated nodes a layer is left with

The nodes of a layer are checked one after the other, the greatest values first, and among
equal values in the order of the ranking.  A node that dominates another one and is checked
before it turns it away, whatever else is kept in between.  One that is checked after it
comes too late: the table forgets the dominated node, the layer does not.

* `Dominance.Table.Knows`: a pair, or something above it, is in the table.  It stays known
  (`Knows.check`), and what it dominates is turned away (`Knows.turns_away`);
* `sift_pairwise`: one check after the other, no node is kept that is dominated by one that
  was checked before;
* `select_apart`: **a dominated node is left in a layer only if it is checked first**;
* `Rounds.kept_apart`: hence **only if it has the same value and is ranked no lower**;
* `Rounds.kept_antichain`: so none is left if the ranking puts each state in front of those
  that it dominates (`Dominance.Ranks`).
-/

import DiagramSearch.Proofs.Intercepting
import DiagramSearch.Proofs.Presenting
import DiagramSearch.Proofs.Queueing
import DiagramSearch.Proofs.Stacking

namespace DiagramSearch

open Dominance

variable {σ κ V : Type}

/-! ### What a table knows -/

section Table

variable [Value V] [BEq σ] [BEq κ] {rel : Dominance σ κ} {t : Table σ κ V} {depth : Nat} {key : κ}
  {e : Entry σ V} {state : σ} {value : V}

/-- A pair that an entry of a group is above, under the key of the group. -/
def Dominance.Table.Knows (rel : Dominance σ κ) (t : Table σ κ V) (depth : Nat) (key : κ)
    (e : Entry σ V) : Prop :=
  ∃ top ∈ t.entries depth key, rel.key top.state = some key ∧ e.Under rel top

variable [LawfulBEq κ] [Value.Ranked V]

/-- **What a table knows it does not forget**: an entry is dropped for one that is above it. -/
theorem Dominance.Table.Knows.check (hrel : rel.IsOrder) (he : rel.key e.state = some key)
    (h : t.Knows rel depth key e) (state : σ) (k : Nat) (value : V) :
    (t.check rel state k value).2.Knows rel depth key e := by
  by_cases hown : depth = k ∧ rel.key state = some key
  · obtain ⟨rfl, hkey⟩ := hown
    by_cases hcovered : ∃ x ∈ t.entries depth key, x.covers rel state value = true
    · rw [(Table.check_of_covered hkey hcovered).1]
      exact h
    · obtain ⟨top, htop, htopkey, hvalue, hle⟩ := h
      unfold Knows
      rw [(Table.check_of_free hkey fun x hx hc => hcovered ⟨x, hx, hc⟩).2]
      by_cases hyields : top.yields rel state value = true
      · have hunder : top.Under rel ⟨state, value⟩ := Entry.yields_iff.1 hyields
        refine ⟨⟨state, value⟩, List.mem_append_right _ (List.mem_singleton_self _), hkey,
          Value.Ranked.le_trans hvalue hunder.1, ?_⟩
        exact hrel.trans _ _ _ key he htopkey hkey hle hunder.2
      · refine ⟨top, List.mem_append_left _ (List.mem_filter.2 ⟨htop, ?_⟩), htopkey, hvalue, hle⟩
        rw [Bool.eq_false_iff.2 hyields]
        rfl
  · unfold Knows
    rw [Table.entries_check_of_ne hown]
    exact h

omit [Value.Ranked V] in
/-- A pair that passes is put in place of the entries that yield to it. -/
theorem Dominance.Table.entries_check_of_none (hkey : rel.key state = some key)
    (h : (t.check rel state depth value).1 = none) :
    (t.check rel state depth value).2.entries depth key =
      (t.entries depth key).filter (fun e => !e.yields rel state value) ++ [⟨state, value⟩] := by
  refine (Table.check_of_free hkey fun e he hcovers => ?_).2
  obtain ⟨_, _, _, _, hverdict⟩ := Table.check_of_covered hkey ⟨e, he, hcovers⟩
  rw [h] at hverdict
  cases hverdict

omit [Value.Ranked V] in
/-- A pair that passes its check is known. -/
theorem Dominance.Table.knows_of_check (hrel : rel.IsOrder) (hkey : rel.key state = some key)
    (hvalue : value ≤ value) (hpass : (t.check rel state depth value).1 = none) :
    (t.check rel state depth value).2.Knows rel depth key ⟨state, value⟩ := by
  unfold Knows
  rw [Table.entries_check_of_none hkey hpass]
  exact ⟨_, List.mem_append_right _ (List.mem_singleton_self _), hkey, hvalue,
    hrel.refl _ key hkey⟩

omit [LawfulBEq κ] in
/-- **What a table knows turns away the pairs that it dominates.** -/
theorem Dominance.Table.Knows.turns_away [LawfulBEq σ] (hrel : rel.IsOrder)
    (he : rel.key e.state = some key) (h : t.Knows rel depth key e)
    (hkey : rel.key state = some key) (hne : state ≠ e.state) (hvalue : value ≤ e.value)
    (hle : rel.le state e.state = true) : (t.check rel state depth value).1 ≠ none := by
  obtain ⟨top, htop, htopkey, htopvalue, htople⟩ := h
  have hcovers : top.covers rel state value = true := by
    -- The entry above has another state, or both would be the same.
    have hother : state ≠ top.state := by
      rintro rfl
      exact hne (hrel.antisymm _ _ key hkey he hle htople)
    rw [Entry.covers, Bool.and_eq_true, Bool.and_eq_true, decide_eq_true_eq]
    refine ⟨⟨Value.Ranked.le_trans hvalue htopvalue, ?_⟩, ?_⟩
    · exact hrel.trans _ _ _ key hkey he htopkey hle htople
    · rw [beq_false_of_ne hother, Bool.and_false]
      rfl
  obtain ⟨_, k, _, _, hverdict⟩ := Table.check_of_covered hkey ⟨top, htop, hcovers⟩
  rw [hverdict]
  exact Option.some_ne_none _

end Table

/-! ### One check after the other -/

/-- The first of two candidates is dominated by the second one, which has another state. -/
structure Candidate.Dominated [Value V] (rel : Dominance σ κ) (a b : Candidate σ V) : Prop where
  key : ∃ key, rel.key a.state = some key ∧ rel.key b.state = some key
  ne : a.state ≠ b.state
  value : a.value ≤ b.value
  le : rel.le a.state b.state = true

/-- A candidate that names a node of a given depth, of which it is known whether it is
exact. -/
def Candidate.Names (exact : Nat → Bool) (depth : Nat) (layer : Layer σ V)
    (c : Candidate σ V) : Prop :=
  ∃ n, layer[c.position]? = some n ∧ n.state = c.state ∧ n.longest = c.value ∧ n.depth = depth ∧
    n.exact = exact c.position

/-- Candidates that name nodes of a layer, each of them once. -/
structure Candidate.Queue (exact : Nat → Bool) (depth : Nat) (cs : List (Candidate σ V))
    (layer : Layer σ V) : Prop where
  nodup : (cs.map (·.position)).Nodup
  names : ∀ c ∈ cs, c.Names exact depth layer

section Queue

variable {exact : Nat → Bool} {depth : Nat} {cs : List (Candidate σ V)} {c : Candidate σ V}
  {layer : Layer σ V}

theorem Candidate.Queue.head (h : Queue exact depth (c :: cs) layer) :
    c.Names exact depth layer :=
  h.names c List.mem_cons_self

theorem Candidate.Queue.tail (h : Queue exact depth (c :: cs) layer) :
    Queue exact depth cs layer :=
  ⟨(List.nodup_cons.1 h.nodup).2, fun c hc => h.names c (List.mem_cons_of_mem _ hc)⟩

/-- What becomes of the first candidate does not matter to the others. -/
theorem Candidate.Queue.drop (h : Queue exact depth (c :: cs) layer) (f : Node σ V → Node σ V) :
    Queue exact depth cs (layer.modify c.position f) := by
  refine ⟨h.tail.nodup, fun c' hc' => ?_⟩
  have hne : c.position ≠ c'.position :=
    fun heq => (List.nodup_cons.1 h.nodup).1 (List.mem_map.2 ⟨c', hc', heq.symm⟩)
  unfold Names
  rw [Array.getElem?_modify, if_neg hne]
  exact h.tail.names c' hc'

end Queue

section Sift

variable [Value V] [BEq σ] [BEq κ] {rel : Dominance σ κ}
  {exact : Nat → Bool} {depth : Nat} {cs : List (Candidate σ V)} {c : Candidate σ V}

/-- A candidate that is not exact is kept unasked. -/
theorem sift_cons_inexact {layer : Layer σ V} (session : Session σ κ V)
    (hc : c.Names exact depth layer) (hexact : exact c.position = false) :
    sift (some rel) (c :: cs) layer session =
      { sift (some rel) cs layer session with
        kept := c :: (sift (some rel) cs layer session).kept } := by
  obtain ⟨n, hn, _, _, _, hnexact⟩ := hc
  rw [sift, hn]
  dsimp only
  rw [if_neg (by rw [hnexact, hexact]; exact Bool.false_ne_true)]

/-- An exact one is asked about, and kept or set aside. -/
theorem sift_cons_exact {layer : Layer σ V} (session : Session σ κ V)
    (hc : c.Names exact depth layer) (hexact : exact c.position = true) :
    sift (some rel) (c :: cs) layer session =
      match (session.table.check rel c.state depth c.value).1 with
      | none =>
        let s := sift (some rel) cs layer (session.check (some rel) c.state depth c.value).2
        { s with kept := c :: s.kept }
      | some threshold =>
        sift (some rel) cs (layer.modify c.position fun n =>
          { n with fate := .dominated, threshold := some threshold })
          (session.check (some rel) c.state depth c.value).2 := by
  obtain ⟨n, hn, hstate, hvalue, hdepth, hnexact⟩ := hc
  rw [sift, hn]
  dsimp only
  rw [if_pos (hnexact.trans hexact), hstate, hvalue, hdepth]
  unfold Session.check
  dsimp only
  cases (session.table.check rel c.state depth c.value).1 <;> rfl

variable [LawfulBEq κ] [Value.Floored V]

/-- **A node that is known keeps those that it dominates out of the layer.** -/
theorem sift_known [LawfulBEq σ] (hrel : rel.IsOrder) {layer : Layer σ V} {session : Session σ κ V}
    (hqueue : Candidate.Queue exact depth cs layer) {b : Candidate σ V} {key : κ}
    (hkey : rel.key b.state = some key)
    (hknown : session.table.Knows rel depth key ⟨b.state, b.value⟩) :
    ∀ a ∈ (sift (some rel) cs layer session).kept, exact a.position = true →
      ¬a.Dominated rel b := by
  induction cs generalizing layer session with
  | nil => exact fun a ha => absurd ha List.not_mem_nil
  | cons c cs ih =>
    cases hexact : exact c.position with
    | false =>
      rw [sift_cons_inexact session hqueue.head hexact]
      rintro a ha haexact
      rcases List.mem_cons.1 ha with rfl | ha
      · exact absurd (hexact.symm.trans haexact) Bool.false_ne_true
      · exact ih hqueue.tail hknown a ha haexact
    | true =>
      have hafter := hknown.check hrel hkey c.state depth c.value
      rw [sift_cons_exact session hqueue.head hexact]
      cases hverdict : (session.table.check rel c.state depth c.value).1 with
      | none =>
        rintro a ha haexact hdominated
        rcases List.mem_cons.1 ha with rfl | ha
        · obtain ⟨key', hakey, hbkey⟩ := hdominated.key
          obtain rfl := Option.some.inj (hkey.symm.trans hbkey)
          exact hknown.turns_away hrel hkey hakey hdominated.ne hdominated.value hdominated.le
            hverdict
        · exact ih hqueue.tail hafter a ha haexact hdominated
      | some threshold => exact ih (hqueue.drop _) hafter

omit [LawfulBEq κ] [Value.Floored V] in
/-- The candidates that are kept are some of those that were asked about. -/
theorem sift_sublist (rel : Dominance σ κ) {layer : Layer σ V}
    (hqueue : Candidate.Queue exact depth cs layer) (session : Session σ κ V) :
    (sift (some rel) cs layer session).kept.Sublist cs := by
  have hsifted : Sifted (some rel) (fun _ _ _ => True) cs layer session
      (sift (some rel) cs layer session) := by
    refine sift_sifted cs layer session hqueue.nodup fun c hc => ?_
    obtain ⟨n, hn, _⟩ := hqueue.names c hc
    exact ⟨n, hn, fun _ => trivial⟩
  exact hsifted.sublist

/-- **No node that is kept is dominated by one that was checked before.** -/
theorem sift_pairwise [LawfulBEq σ] (hrel : rel.IsOrder) {layer : Layer σ V}
    (hqueue : Candidate.Queue exact depth cs layer) (session : Session σ κ V) :
    (sift (some rel) cs layer session).kept.Pairwise fun b a =>
      exact b.position = true → exact a.position = true → ¬a.Dominated rel b := by
  induction cs generalizing layer session with
  | nil => exact .nil
  | cons c cs ih =>
    cases hexact : exact c.position with
    | false =>
      rw [sift_cons_inexact session hqueue.head hexact]
      refine List.pairwise_cons.2 ⟨fun a _ hc => ?_, ih hqueue.tail _⟩
      exact absurd (hexact.symm.trans hc) Bool.false_ne_true
    | true =>
      rw [sift_cons_exact session hqueue.head hexact]
      cases hverdict : (session.table.check rel c.state depth c.value).1 with
      | none =>
        refine List.pairwise_cons.2 ⟨fun a ha _ haexact hdominated => ?_, ih hqueue.tail _⟩
        -- The candidate is known from now on.
        obtain ⟨key, _, hkey⟩ := hdominated.key
        have hdefined := Value.Floored.defined_of_ge hdominated.value
        exact sift_known hrel hqueue.tail hkey (Table.knows_of_check hrel hkey hdefined hverdict) a
          ha haexact hdominated
      | some threshold => exact ih (hqueue.drop _) _

end Sift

/-! ### The order of the checks -/

section Better

variable [Value V] {ranking : σ → σ → Ordering}

/-- A greater value is checked first, and then a greater state. -/
theorem Candidate.better_iff {a b : Candidate σ V} :
    a.better ranking b = true ↔ Value.order b.value a.value = .lt ∨
      Value.order b.value a.value = .eq ∧ ranking b.state a.state ≠ .gt := by
  unfold better
  cases Value.order b.value a.value <;> simp [Ordering.then]

/-- Where the values and the states are totally ordered, so are the checks. -/
theorem Reduction.sortByCost_pairwise [Std.TransCmp (Value.order (V := V))] [Std.TransCmp ranking]
    (cs : List (Candidate σ V)) :
    (sortByCost ranking cs).Pairwise fun a b => a.better ranking b = true := by
  have hvalue : Std.TransCmp fun a b : Candidate σ V => Value.order b.value a.value :=
    { eq_swap := Std.OrientedCmp.eq_swap
      isLE_trans := fun h h' => Std.TransCmp.isLE_trans h' h }
  have hstate : Std.TransCmp fun a b : Candidate σ V => ranking b.state a.state :=
    { eq_swap := Std.OrientedCmp.eq_swap
      isLE_trans := fun h h' => Std.TransCmp.isLE_trans h' h }
  refine Ordered.sort_ordered_of_isLE (compareLex (fun a b => Value.order b.value a.value)
    fun a b => ranking b.state a.state) (fun a b => ?_) cs
  rw [Candidate.better, compareLex, ← Ordering.ne_gt_iff_isLE, bne_iff_ne]

end Better

/-- The ranking puts a state in front of those that it dominates. -/
def Dominance.Ranks (rel : Dominance σ κ) (ranking : σ → σ → Ordering) : Prop :=
  ∀ a b key, rel.key a = some key → rel.key b = some key → a ≠ b → rel.le a b = true →
    ranking b a = .gt

/-- Under such a ranking no candidate is dominated by one that comes after it. -/
theorem Candidate.not_dominated_of_better {rel : Dominance σ κ} {ranking : σ → σ → Ordering}
    (hranks : rel.Ranks ranking) {a b : Candidate σ Extended} (h : a.better ranking b = true) :
    ¬a.Dominated rel b := by
  rintro ⟨⟨key, ha, hb⟩, hne, hvalue, hle⟩
  rcases Candidate.better_iff.1 h with hlt | ⟨_, hranking⟩
  · exact not_lt_of_ge hvalue (Extended.order_eq_lt_iff.1 hlt)
  · exact hranking (hranks a.state b.state key ha hb hne hle)

/-! ### A whole layer -/

/-- Whether there is an exact node at a position. -/
def Layer.exactAt (layer : Layer σ V) (j : Nat) : Bool :=
  layer[j]?.any (·.exact)

theorem Layer.exactAt_congr {layer layer' : Layer σ V}
    (h : layer.map Node.lineage = layer'.map Node.lineage) : layer.exactAt = layer'.exactAt := by
  have hexact : ∀ layer : Layer σ V,
      layer.exactAt = fun j => (layer.map Node.lineage)[j]?.any (·.exact) := by
    intro layer
    funext j
    rw [exactAt, Array.getElem?_map, Option.any_map]
    rfl
  rw [hexact, hexact, h]

section Select

variable [Value V] [BEq σ] {pending : Layer σ V} {depth : Nat}

/-- Setting nodes aside is no matter of descent. -/
theorem Layer.lineage_screened (pending : Layer σ V) (cache : Cache σ V) (isRoot : Bool) :
    (pending.screened cache isRoot).map Node.lineage = pending.map Node.lineage := by
  unfold screened
  split
  · rfl
  · rw [Array.map_map]
    refine Array.map_congr_left fun n _ => ?_
    rcases n.screen_cases cache with heq | ⟨_, _, _, heq⟩
    · rw [Function.comp_apply, heq]
    · rw [Function.comp_apply, heq]
      rfl

/-- The candidates of a layer, in order, name its nodes. -/
theorem Layer.queue_screened (hdepth : ∀ n ∈ pending, n.depth = depth)
    (ranking : σ → σ → Ordering) (cache : Cache σ V) (isRoot : Bool) :
    Candidate.Queue pending.exactAt depth
      (Reduction.sortByCost ranking (pending.screened cache isRoot).candidates)
      (pending.screened cache isRoot) := by
  have hsame := pending.lineage_screened cache isRoot
  refine ⟨((Layer.lists_candidates _).perm (Ordered.sort_perm _ _)).nodup, fun c hc => ?_⟩
  obtain ⟨n, hn, _, heq⟩ := Layer.mem_candidates.1 ((Ordered.sort_perm _ _).mem_iff.1 hc)
  obtain ⟨m, hm, hlineage⟩ := Layer.exists_lineage_eq hsame (Array.mem_of_getElem? hn)
  rw [heq]
  refine ⟨n, hn, rfl, rfl, (congrArg Lineage.depth hlineage).trans (hdepth m hm), ?_⟩
  rw [← Layer.exactAt_congr hsame, exactAt, hn, Option.any_some]

variable [BEq κ] {r : Request σ κ V} {rel : Dominance σ κ} {a b : Candidate σ V}

/-- **A dominated node is left in a layer only if it is checked first.** -/
theorem select_apart [LawfulBEq σ] [LawfulBEq κ] [Value.Floored V] (hrel : rel.IsOrder)
    (hdom : r.dominance = some rel) (hdepth : ∀ n ∈ pending, n.depth = depth)
    {session : Session σ κ V} {isRoot : Bool}
    (ha : a ∈ (select r session isRoot pending).kept)
    (hb : b ∈ (select r session isRoot pending).kept)
    (haexact : pending.exactAt a.position = true) (hbexact : pending.exactAt b.position = true)
    (hdominated : a.Dominated rel b) : [a, b].Sublist (select r session isRoot pending).kept := by
  have hpairwise : (select r session isRoot pending).kept.Pairwise fun b a =>
      pending.exactAt b.position = true → pending.exactAt a.position = true →
        ¬a.Dominated rel b := by
    rw [select_eq, hdom]
    exact sift_pairwise hrel (Layer.queue_screened hdepth r.ranking session.cache isRoot) session
  have hside : (select r session isRoot pending).kept.Pairwise fun x y =>
      [x, y].Sublist (select r session isRoot pending).kept ∨
        [y, x].Sublist (select r session isRoot pending).kept :=
    List.pairwise_iff_forall_sublist.2 fun h => .inl h
  have hsymm : Std.Symm fun x y : Candidate σ V =>
      [x, y].Sublist (select r session isRoot pending).kept ∨
        [y, x].Sublist (select r session isRoot pending).kept := ⟨fun _ _ => Or.symm⟩
  have hne : a ≠ b := fun heq => hdominated.ne (congrArg (·.state) heq)
  rcases hside.forall ha hb hne with h | h
  · exact h
  · exact absurd hdominated (List.pairwise_iff_forall_sublist.1 hpairwise h hbexact haexact)

/-- What is kept is in the order of the checks. -/
theorem select_better (hdom : r.dominance = some rel) (hdepth : ∀ n ∈ pending, n.depth = depth)
    [Std.TransCmp (Value.order (V := V))] [Std.TransCmp r.ranking]
    {session : Session σ κ V} {isRoot : Bool}
    (h : [a, b].Sublist (select r session isRoot pending).kept) :
    a.better r.ranking b = true := by
  rw [select_eq, hdom] at h
  have hsub := sift_sublist rel (Layer.queue_screened hdepth r.ranking session.cache isRoot) session
  exact List.pairwise_iff_forall_sublist.1 (Reduction.sortByCost_pairwise _) (h.trans hsub)

end Select

section Rounds

variable [Value V] [BEq σ] [Hashable σ] [BEq κ] {audit : Audit σ κ V} {r : Request σ κ V}
  {rel : Dominance σ κ} {start session : Session σ κ V} {free : Variables} {d : Diagram σ V}
  {a b : Candidate σ V}

theorem Rounds.depth_pending (h : Rounds audit r start session free d) :
    ∀ n ∈ d.pending, n.depth = r.residual.depth + d.layers.length := by
  intro n hn
  have hdepth := h.stacked.1 n.lineage (Array.mem_map_of_mem hn)
  rw [List.length_map] at hdepth
  exact hdepth

/-- **Of the exact nodes that selection leaves in a layer, one is dominated by another one of
the same key only if it has the same value, is ranked no lower and was checked before**, in
any round of any compilation and whatever the table holds. -/
theorem Rounds.kept_apart [LawfulBEq σ] [LawfulBEq κ] [Value.Floored V]
    [Std.TransCmp (Value.order (V := V))] [Std.TransCmp r.ranking] (hrel : rel.IsOrder)
    (hdom : r.dominance = some rel) (h : Rounds audit r start session free d)
    (ha : a ∈ (select r session d.layers.isEmpty d.pending).kept)
    (hb : b ∈ (select r session d.layers.isEmpty d.pending).kept)
    (haexact : d.pending.exactAt a.position = true) (hbexact : d.pending.exactAt b.position = true)
    (hdominated : a.Dominated rel b) :
    a.value ≤ b.value ∧ b.value ≤ a.value ∧
      (Value.order b.value a.value = .eq → r.ranking b.state a.state ≠ .gt) ∧
      [a, b].Sublist (select r session d.layers.isEmpty d.pending).kept := by
  have hfirst := select_apart hrel hdom h.depth_pending ha hb haexact hbexact hdominated
  have hbetter := Candidate.better_iff.1 (select_better hdom h.depth_pending hfirst)
  have hbdefined : b.value ≤ b.value := Value.Floored.defined_of_ge hdominated.value
  have hadefined : a.value ≤ a.value := Value.Ranked.defined_of_le hdominated.value
  refine ⟨hdominated.value, ?_, fun heq => ?_, hfirst⟩
  · refine Value.Ranked.le_of_order_ne_gt hbdefined hadefined ?_
    rcases hbetter with heq | ⟨heq, _⟩ <;> rw [heq] <;> exact nofun
  · rcases hbetter with hlt | ⟨_, hranking⟩
    · rw [heq] at hlt
      cases hlt
    · exact hranking

end Rounds

/-- **No dominated node is left in a layer if the ranking sides with the relation.** -/
theorem Rounds.kept_antichain [BEq σ] [LawfulBEq σ] [Hashable σ] [BEq κ] [LawfulBEq κ]
    {audit : Audit σ κ Extended} {r : Request σ κ Extended} {rel : Dominance σ κ}
    {start session : Session σ κ Extended} {free : Variables} {d : Diagram σ Extended}
    {a b : Candidate σ Extended} (hrel : rel.IsOrder) (hdom : r.dominance = some rel)
    (hranks : rel.Ranks r.ranking) [Std.TransCmp r.ranking]
    (h : Rounds audit r start session free d)
    (ha : a ∈ (select r session d.layers.isEmpty d.pending).kept)
    (hb : b ∈ (select r session d.layers.isEmpty d.pending).kept)
    (haexact : d.pending.exactAt a.position = true)
    (hbexact : d.pending.exactAt b.position = true) : ¬a.Dominated rel b := by
  intro hdominated
  have hfirst := select_apart hrel hdom h.depth_pending ha hb haexact hbexact hdominated
  exact Candidate.not_dominated_of_better hranks (select_better hdom h.depth_pending hfirst)
    hdominated

/-- Two picks that are worth nothing, the smaller numbers first among equal values. -/
def idlePicks : Request Nat Unit Extended :=
  let r := twoPicksRequest .restricted (some upwards)
  { r with
    model := { r.model with problem := { twoPicks with cost := fun _ _ => 0 } }
    ranking := fun a b => compare b a }

/-- The first decision of these picks. -/
def idleExpansion : Expansion Nat Unit Extended :=
  (settleLayer idlePicks.audit idlePicks .fresh (Diagram.rooted idlePicks.residual)).expansion
    idlePicks (idlePicks.residual.free 2) 0 0

/-- The diagram after the first decision. -/
def idleDiagram : Diagram Nat Extended :=
  (Diagram.rooted idlePicks.residual).expanded
    (settleLayer idlePicks.audit idlePicks .fresh (Diagram.rooted idlePicks.residual)) idleExpansion

theorem idlePicks_rounds : Rounds idlePicks.audit idlePicks .fresh idleExpansion.session
    ((idlePicks.residual.free 2).erase 0) idleDiagram :=
  Rounds.root.next rfl (by decide +kernel) (by decide +kernel)
    (show _ = some ⟨0, by decide +kernel⟩ by decide +kernel) rfl (by decide +kernel)

/-- A node that is dominated and checked first is left in its layer. -/
theorem Rounds.kept_apart_idlePicks :
    ∃ a ∈ (select idlePicks idleExpansion.session false idleDiagram.pending).kept,
    ∃ b ∈ (select idlePicks idleExpansion.session false idleDiagram.pending).kept,
      a.Dominated upwards b ∧ idlePicks.ranking b.state a.state ≠ .gt := by
  have hranking : Std.TransCmp idlePicks.ranking :=
    { eq_swap := fun {a b} => Std.OrientedOrd.eq_swap (a := b) (b := a)
      isLE_trans := fun {a b c} h h' => Std.TransOrd.isLE_trans (a := c) h' h }
  have hkept : ((select idlePicks idleExpansion.session false
      idleDiagram.pending).kept.map fun c => (c.position, c.state, c.value)) =
      [(0, 0, 0), (1, 1, 0)] := by
    decide +kernel
  obtain ⟨a, rest, heq, ha, hrest⟩ := List.map_eq_cons_iff.1 hkept
  obtain ⟨b, _, rfl, hb, _⟩ := List.map_eq_cons_iff.1 hrest
  obtain ⟨i, s, v⟩ := a
  obtain ⟨j, t, w⟩ := b
  cases ha
  cases hb
  have hmem : ⟨0, 0, 0⟩ ∈ (select idlePicks idleExpansion.session false
      idleDiagram.pending).kept := heq ▸ List.mem_cons_self
  have hmem' : ⟨1, 1, 0⟩ ∈ (select idlePicks idleExpansion.session false
      idleDiagram.pending).kept := heq ▸ List.mem_cons_of_mem _ List.mem_cons_self
  have hdominated : Candidate.Dominated upwards ⟨0, 0, 0⟩ (⟨1, 1, 0⟩ : Candidate Nat Extended) :=
    ⟨⟨(), rfl, rfl⟩, by decide, le_rfl, by decide⟩
  refine ⟨_, hmem, _, hmem', hdominated, ?_⟩
  obtain ⟨_, _, hranked, _⟩ := idlePicks_rounds.kept_apart upwards_isOrder rfl hmem hmem'
    (by decide +kernel) (by decide +kernel) hdominated
  exact hranked (by decide)

end DiagramSearch
