/-
# Compiling a diagram again

An exact compilation leaves its dominance table behind, and the next one starts from it.
What the first one kept is in the table, and is offered again; what it dropped is covered
again.  An entry that is offered again takes its own place, and entries are only turned away
by others that are strictly above.  So the second compilation finds what the first one found,
provided that no entry covers a node that the first one kept: that is so if a node is always
checked after those that dominate it, among equal values too (`Ranks`).

* `sift_entries`: what the table holds of a layer is what was kept of it, in order;
* `sift_again`: **asked about the same nodes again, the table answers the same**;
* `unroll_again`: hence all layers come out the same;
* `Request.compile_repeats`: **compiled a second time, the diagram is the same**, and so is
  what is told of it.
-/

import DiagramSearch.Proofs.Filtering
import DiagramSearch.Proofs.Journaling
import DiagramSearch.Proofs.Vouching

namespace DiagramSearch

open Dominance

variable {σ κ : Type}

/-! ### The entries of a group -/

section Entries

variable [BEq κ] {V : Type}

/-- What the exact ones of some candidates leave in the group of a key. -/
def Candidate.entries (rel : Dominance σ κ) (exact : Nat → Bool) (key : κ)
    (cs : List (Candidate σ V)) : List (Entry σ V) :=
  (cs.filter fun c => exact c.position && rel.key c.state == some key).map fun c =>
    ⟨c.state, c.value⟩

variable {rel : Dominance σ κ} {exact : Nat → Bool} {key : κ} {c : Candidate σ V}
  {cs : List (Candidate σ V)}

theorem Candidate.entries_cons_of_pos [LawfulBEq κ] (hexact : exact c.position = true)
    (hkey : rel.key c.state = some key) :
    entries rel exact key (c :: cs) = ⟨c.state, c.value⟩ :: entries rel exact key cs := by
  unfold entries
  rw [List.filter_cons_of_pos (by rw [hexact, hkey, beq_self_eq_true]; rfl), List.map_cons]

theorem Candidate.entries_cons_of_neg [LawfulBEq κ]
    (h : ¬(exact c.position = true ∧ rel.key c.state = some key)) :
    entries rel exact key (c :: cs) = entries rel exact key cs := by
  unfold entries
  rw [List.filter_cons_of_neg]
  rwa [Bool.and_eq_true, beq_iff_eq]

theorem Candidate.mem_entries [LawfulBEq κ] {e : Entry σ V} (he : e ∈ entries rel exact key cs) :
    ∃ c ∈ cs, exact c.position = true ∧ rel.key c.state = some key ∧ e = ⟨c.state, c.value⟩ := by
  obtain ⟨c, hc, rfl⟩ := List.mem_map.1 he
  obtain ⟨hc, hboth⟩ := List.mem_filter.1 hc
  rw [Bool.and_eq_true, beq_iff_eq] at hboth
  exact ⟨c, hc, hboth.1, hboth.2, rfl⟩

end Entries

section Table

variable [BEq σ] [BEq κ] {V : Type} [Value V] {rel : Dominance σ κ} {t t' : Table σ κ V}
  {state : σ} {depth : Nat} {value : V}

/-- An answer depends on the first entry that covers the pair. -/
theorem Dominance.Table.check_fst_congr
    (h : ∀ key, rel.key state = some key →
      (t'.entries depth key).find? (fun e => e.covers rel state value) =
        (t.entries depth key).find? fun e => e.covers rel state value) :
    (t'.check rel state depth value).1 = (t.check rel state depth value).1 := by
  unfold Table.check
  cases hkey : rel.key state with
  | none => rfl
  | some key =>
    dsimp only
    rw [h key hkey]
    cases (t.entries depth key).find? fun e => e.covers rel state value <;> rfl

omit [BEq σ] [BEq κ] in
/-- An entry that is under a pair is dropped for it, and no other one is. -/
theorem Dominance.Entry.not_yields_iff {e : Entry σ V} :
    (!e.yields rel state value) = true ↔ ¬e.Under rel ⟨state, value⟩ := by
  rw [Bool.not_eq_true', ← Bool.not_eq_true]
  exact not_congr (Entry.yields_iff (b := ⟨state, value⟩))

/-- A pair that is offered again takes its own place.  What stands in front of the entries
that another table has stays there. -/
theorem Dominance.Table.check_ahead [LawfulBEq κ] (hrel : rel.IsOrder) {key : κ}
    (hkey : rel.key state = some key) (hvalue : value ≤ value) {rest : List (Entry σ V)}
    (hpass : (t.check rel state depth value).1 = none)
    (hpass' : (t'.check rel state depth value).1 = none)
    (hrest : ∀ e ∈ rest, ¬e.Under rel ⟨state, value⟩)
    (hahead : t'.entries depth key = ⟨state, value⟩ :: rest ++ t.entries depth key) :
    (t'.check rel state depth value).2.entries depth key =
      rest ++ (t.check rel state depth value).2.entries depth key := by
  have hself : (⟨state, value⟩ : Entry σ V).Under rel ⟨state, value⟩ :=
    ⟨hvalue, hrel.refl state key hkey⟩
  rw [Table.entries_check_of_none hkey hpass, Table.entries_check_of_none hkey hpass', hahead,
    List.cons_append, List.filter_cons, if_neg fun h => Entry.not_yields_iff.1 h hself,
    List.filter_append, List.filter_eq_self.2 fun e he => Entry.not_yields_iff.2 (hrest e he),
    List.append_assoc]

end Table

/-! ### A layer -/

section Sift

variable [BEq σ] [LawfulBEq σ] [BEq κ] [LawfulBEq κ] {rel : Dominance σ κ} {exact : Nat → Bool}
  {depth : Nat} {cs : List (Candidate σ Extended)} {c : Candidate σ Extended}
  {layer : Layer σ Extended} {s t : Session σ κ Extended}

/-- Candidates in an order in which none is dominated by a later one, each of a state of its
own. -/
def Candidate.Descending (rel : Dominance σ κ) (cs : List (Candidate σ Extended)) : Prop :=
  cs.Pairwise fun a b => a.state ≠ b.state ∧ ¬a.Dominated rel b

omit [BEq σ] [LawfulBEq σ] [BEq κ] [LawfulBEq κ] in
theorem Candidate.Dominated.of_under {a b : Candidate σ Extended} {key : κ}
    (hne : a.state ≠ b.state) (ha : rel.key a.state = some key) (hb : rel.key b.state = some key)
    (h : Entry.Under rel ⟨a.state, a.value⟩ ⟨b.state, b.value⟩) : a.Dominated rel b :=
  ⟨⟨key, ha, hb⟩, hne, h.1, h.2⟩

omit [LawfulBEq σ] in
/-- **What the table holds of a layer is what was kept of it, in order.** -/
theorem sift_entries (hqueue : Candidate.Queue exact depth cs layer)
    (hdescending : Candidate.Descending rel cs) {key : κ}
    (hclear : ∀ e ∈ s.table.entries depth key, ∀ c ∈ cs, rel.key c.state = some key →
      ¬e.Under rel ⟨c.state, c.value⟩) :
    (sift (some rel) cs layer s).session.table.entries depth key =
      s.table.entries depth key ++
        Candidate.entries rel exact key (sift (some rel) cs layer s).kept := by
  induction cs generalizing layer s with
  | nil => exact (List.append_nil _).symm
  | cons c cs ih =>
    obtain ⟨hfirst, hdescending⟩ := List.pairwise_cons.1 hdescending
    have hlater : ∀ e ∈ s.table.entries depth key, ∀ c ∈ cs, rel.key c.state = some key →
        ¬e.Under rel ⟨c.state, c.value⟩ :=
      fun e he c hc => hclear e he c (List.mem_cons_of_mem _ hc)
    cases hexact : exact c.position with
    | false =>
      rw [sift_cons_inexact s hqueue.head hexact,
        Candidate.entries_cons_of_neg fun h => Bool.false_ne_true (hexact.symm.trans h.1)]
      exact ih hqueue.tail hdescending hlater
    | true =>
      rw [sift_cons_exact s hqueue.head hexact]
      cases hverdict : (s.table.check rel c.state depth c.value).1 with
      | some threshold =>
        have htable : (s.check (some rel) c.state depth c.value).2.table = s.table :=
          Table.check_snd_of_some hverdict
        rw [← htable] at hlater ⊢
        exact ih (hqueue.drop _) hdescending hlater
      | none =>
        by_cases hkey : rel.key c.state = some key
        · have hentries : (s.check (some rel) c.state depth c.value).2.table.entries depth key =
              s.table.entries depth key ++ [⟨c.state, c.value⟩] := by
            refine (Table.entries_check_of_none hkey hverdict).trans ?_
            rw [List.filter_eq_self.2 fun e he => ?_]
            exact Entry.not_yields_iff.2 (hclear e he c List.mem_cons_self hkey)
          rw [Candidate.entries_cons_of_pos hexact hkey, ← List.singleton_append,
            ← List.append_assoc, ← hentries]
          refine ih hqueue.tail hdescending fun e he c' hc' hkey' hunder => ?_
          rw [hentries] at he
          rcases List.mem_append.1 he with he | he
          · exact hlater e he c' hc' hkey' hunder
          · obtain rfl := List.mem_singleton.1 he
            obtain ⟨hne, hundominated⟩ := hfirst c' hc'
            exact hundominated (.of_under hne hkey hkey' hunder)
        · have hentries : (s.check (some rel) c.state depth c.value).2.table.entries depth key =
              s.table.entries depth key :=
            Table.entries_check_of_ne fun h => hkey h.2
          rw [Candidate.entries_cons_of_neg fun h => hkey h.2, ← hentries]
          rw [← hentries] at hlater
          exact ih hqueue.tail hdescending hlater

/-- **Asked about the same nodes again, the table answers the same.**  To what the first
selection found, the second one finds what the first one is still to keep. -/
theorem sift_again (hrel : rel.IsOrder) (hqueue : Candidate.Queue exact depth cs layer)
    (hdescending : Candidate.Descending rel cs)
    (hahead : ∀ key, t.table.entries depth key =
      Candidate.entries rel exact key (sift (some rel) cs layer s).kept ++
        s.table.entries depth key) :
    (sift (some rel) cs layer t).layer = (sift (some rel) cs layer s).layer ∧
      (sift (some rel) cs layer t).kept = (sift (some rel) cs layer s).kept ∧
      ∀ key, (sift (some rel) cs layer t).session.table.entries depth key =
        (sift (some rel) cs layer s).session.table.entries depth key := by
  induction cs generalizing layer s t with
  | nil => exact ⟨rfl, rfl, hahead⟩
  | cons c cs ih =>
    have hkeeps := sift_pairwise hrel hqueue s
    have hsub := sift_sublist rel hqueue s
    obtain ⟨hfirst, hdescending⟩ := List.pairwise_cons.1 hdescending
    cases hexact : exact c.position with
    | false =>
      have hnext := ih (s := s) (t := t) hqueue.tail hdescending fun key => by
        rw [hahead key, sift_cons_inexact s hqueue.head hexact,
          Candidate.entries_cons_of_neg fun h => Bool.false_ne_true (hexact.symm.trans h.1)]
      rw [sift_cons_inexact s hqueue.head hexact, sift_cons_inexact t hqueue.head hexact]
      exact ⟨hnext.1, congrArg (c :: ·) hnext.2.1, hnext.2.2⟩
    | true =>
      -- What stands in front is no reason to turn the candidate away.
      have hverdicts : (t.table.check rel c.state depth c.value).1 =
          (s.table.check rel c.state depth c.value).1 := by
        refine Table.check_fst_congr fun key hkey => ?_
        rw [hahead key, List.find?_append, List.find?_eq_none.2 fun e he hcovers => ?_,
          Option.none_or]
        obtain ⟨x, hx, _, hxkey, rfl⟩ := Candidate.mem_entries he
        obtain ⟨hunder, hother⟩ := Entry.covers_iff Extended.isOrder ⟨hxkey, trivial⟩
          (b := ⟨c.state, c.value⟩) ⟨hkey, trivial⟩ |>.1 hcovers
        rcases List.mem_cons.1 (hsub.subset hx) with rfl | hx
        · exact hother rfl
        · obtain ⟨hne, hundominated⟩ := hfirst x hx
          exact hundominated (.of_under hne hkey hxkey hunder)
      rw [sift_cons_exact s hqueue.head hexact] at hahead hkeeps hsub ⊢
      rw [sift_cons_exact t hqueue.head hexact, hverdicts]
      cases hverdict : (s.table.check rel c.state depth c.value).1 with
      | some threshold =>
        rw [hverdict] at hahead
        refine ih (hqueue.drop _) hdescending fun key => ?_
        have htable : (s.check (some rel) c.state depth c.value).2.table = s.table :=
          Table.check_snd_of_some hverdict
        have htable' : (t.check (some rel) c.state depth c.value).2.table = t.table :=
          Table.check_snd_of_some (hverdicts.trans hverdict)
        rw [htable', hahead key, htable]
      | none =>
        rw [hverdict] at hahead hkeeps hsub
        have hnext := ih (s := (s.check (some rel) c.state depth c.value).2)
          (t := (t.check (some rel) c.state depth c.value).2) hqueue.tail hdescending fun key => by
          by_cases hkey : rel.key c.state = some key
          · refine Table.check_ahead hrel hkey le_rfl hverdict (hverdicts.trans hverdict) ?_
              ((hahead key).trans (by rw [Candidate.entries_cons_of_pos hexact hkey]))
            intro e he hunder
            obtain ⟨x, hx, hxexact, hxkey, rfl⟩ := Candidate.mem_entries he
            have hne : x.state ≠ c.state :=
              (hfirst x ((List.cons_sublist_cons.1 hsub).subset hx)).1.symm
            exact (List.pairwise_cons.1 hkeeps).1 x hx hexact hxexact
              (.of_under hne hxkey hkey hunder)
          · have hother : ¬(depth = depth ∧ rel.key c.state = some key) := fun h => hkey h.2
            refine (Table.entries_check_of_ne hother).trans ((hahead key).trans ?_)
            rw [Candidate.entries_cons_of_neg fun h => hkey h.2]
            exact congrArg _ (Table.entries_check_of_ne hother).symm
        exact ⟨hnext.1, congrArg (c :: ·) hnext.2.1, hnext.2.2⟩

end Sift

section Select

variable [BEq σ] [BEq κ] {r : Request σ κ Extended} {rel : Dominance σ κ} {depth : Nat}
  {pending : Layer σ Extended} {s t : Session σ κ Extended}

omit [BEq κ] in
theorem Layer.descending_screened (hranks : rel.Ranks r.ranking) [Std.TransCmp r.ranking]
    (hdistinct : (pending.toList.map (·.state)).Nodup) (cache : Cache σ Extended) (isRoot : Bool) :
    Candidate.Descending rel
      (Reduction.sortByCost r.ranking (pending.screened cache isRoot).candidates) := by
  have hstates : (pending.screened cache isRoot).toList.map (·.state) =
      pending.toList.map (·.state) := by
    have hsame := congrArg (fun l => l.toList.map (·.state))
      (pending.lineage_screened cache isRoot)
    simpa only [Array.toList_map, List.map_map, Function.comp_def, Node.lineage] using hsame
  have hcandidates : ((pending.screened cache isRoot).candidates.map (·.state)).Nodup := by
    have hsub := (pending.screened cache isRoot).map_candidates_sublist
      (g := (·.state)) (f := (·.1.state)) fun _ _ => rfl
    refine List.Nodup.sublist hsub ?_
    rw [← hstates, ← List.zipIdx_map_fst 0 (pending.screened cache isRoot).toList,
      List.map_map] at hdistinct
    exact hdistinct
  have hsorted : ((Reduction.sortByCost r.ranking
      (pending.screened cache isRoot).candidates).map (·.state)).Nodup :=
    ((Ordered.sort_perm _ _).map _).nodup_iff.2 hcandidates
  refine (List.pairwise_map.1 hsorted).imp₂ (fun a b hne hbetter => ?_)
    (Reduction.sortByCost_pairwise _)
  exact ⟨hne, Candidate.not_dominated_of_better hranks hbetter⟩

variable [LawfulBEq σ] [LawfulBEq κ]

/-- **A layer is selected again as it was before**, if the table holds what it held of it
afterwards. -/
theorem select_again (hrel : rel.IsOrder) (hdom : r.dominance = some rel)
    (hranks : rel.Ranks r.ranking) [Std.TransCmp r.ranking]
    (hdepth : ∀ n ∈ pending, n.depth = depth) (hdistinct : (pending.toList.map (·.state)).Nodup)
    (isRoot : Bool) (hcache : t.cache = s.cache)
    (hvacant : ∀ key, s.table.entries depth key = [])
    (hheld : ∀ key, t.table.entries depth key =
      (select r s isRoot pending).session.table.entries depth key) :
    (select r t isRoot pending).layer = (select r s isRoot pending).layer ∧
      (select r t isRoot pending).kept = (select r s isRoot pending).kept ∧
      ∀ key, (select r t isRoot pending).session.table.entries depth key =
        (select r s isRoot pending).session.table.entries depth key := by
  have hqueue := Layer.queue_screened hdepth r.ranking s.cache isRoot
  have hdescending := Layer.descending_screened hranks hdistinct s.cache isRoot
  rw [select_eq, hdom] at hheld ⊢
  rw [select_eq, hdom, hcache]
  refine sift_again hrel hqueue hdescending fun key => ?_
  rw [hheld key, sift_entries hqueue hdescending, hvacant key, List.nil_append, List.append_nil]
  intro e he
  rw [hvacant key] at he
  cases he

end Select

/-! ### An expansion -/

section Expansion

variable {V : Type} [BEq σ] [Hashable σ] [BEq κ] [Value V] {r : Request σ κ V}

omit [BEq κ] in
/-- Taking decisions asks no table and tells no cache. -/
theorem Expansion.quiet_branch (problem : Problem σ V) (checks : Checks) (source : Nat)
    (parent : Node σ V) (x : Expansion σ κ V) (d : Decision) :
    x.session.Quiet (branch problem checks source parent x d).session := by
  have hone := x.session.quiet_applied
  have htwo := hone.trans x.session.applied.quiet_applied
  unfold branch
  split
  · exact .refl _
  · dsimp only
    split
    · split
      · exact htwo
      · exact htwo
    · exact hone

omit [BEq κ] in
theorem Expansion.quiet_expand (r : Request σ κ V) (free : Variables) (var : Nat)
    (x : Expansion σ κ V) (position : Nat) :
    x.session.Quiet (expand r free var x position).session := by
  unfold expand
  split
  · dsimp only
    split
    · exact .refl _
    · refine List.foldlRecOn _ _ (motive := fun y : Expansion σ κ V => x.session.Quiet y.session)
        (.refl _) fun y hy d _ => ?_
      exact hy.trans (quiet_branch _ _ _ _ y d)
  · exact .refl _

omit [BEq κ] in
theorem Fitted.quiet_expansion (f : Fitted σ κ V) (r : Request σ κ V) (free : Variables)
    (index var : Nat) : f.session.Quiet (f.expansion r free index var).session := by
  refine List.foldlRecOn f.kept _ (motive := fun y : Expansion σ κ V => f.session.Quiet y.session)
    (Session.quiet_note _) fun y hy j _ => ?_
  exact hy.trans (Expansion.quiet_expand r free var y j)

/-- Two expansions that are the same but for their sessions, and meet no fault. -/
structure Expansion.Repeats (x y : Expansion σ κ V) : Prop where
  layer : y.layer = x.layer
  pending : y.pending = x.pending
  clear : x.fault = none
  clear' : y.fault = none

variable [LawfulBEq σ] {x y : Expansion σ κ V}

omit [BEq κ] in
/-- A transition that is pure leads to the same state again. -/
theorem Expansion.Repeats.branch {problem : Problem σ V} (hpure : problem.Pure) (checks : Checks)
    (source : Nat) (parent : Node σ V) (h : x.Repeats y) (d : Decision) :
    (branch problem checks source parent x d).Repeats
      (branch problem checks source parent y d) := by
  obtain ⟨session, layer, pending, fault⟩ := x
  obtain ⟨session', layer', pending', fault'⟩ := y
  obtain ⟨rfl, rfl, rfl, rfl⟩ := h
  have hsame : ∀ i, problem.transition i parent.state d =
      problem.transition session.applications parent.state d :=
    fun i => hpure i session.applications parent.state d
  unfold Expansion.branch
  dsimp only
  rw [hsame session.applied.applications, hsame session'.applications,
    hsame session'.applied.applications, sameState_self]
  simp only [Option.isSome_none, Bool.false_eq_true, if_false, if_true]
  split
  · exact ⟨rfl, rfl, rfl, rfl⟩
  · exact ⟨rfl, rfl, rfl, rfl⟩

omit [BEq κ] in
theorem Expansion.Repeats.expand (hpure : r.model.problem.Pure) (free : Variables) (var : Nat)
    (h : x.Repeats y) (position : Nat) :
    (expand r free var x position).Repeats (expand r free var y position) := by
  obtain ⟨session, layer, pending, fault⟩ := x
  obtain ⟨session', layer', pending', fault'⟩ := y
  obtain ⟨rfl, rfl, rfl, rfl⟩ := h
  unfold Expansion.expand
  dsimp only
  cases layer'[position]? with
  | none => exact ⟨rfl, rfl, rfl, rfl⟩
  | some node =>
    dsimp only
    split
    · exact ⟨rfl, rfl, rfl, rfl⟩
    · exact List.foldl_rel ⟨rfl, rfl, rfl, rfl⟩
        fun d _ _ _ h => h.branch hpure r.checks position node d

omit [BEq κ] in
/-- **What is expanded again comes out the same**, without a fault. -/
theorem Fitted.expansion_repeats (hpure : r.model.problem.Pure) {f g : Fitted σ κ V}
    (hlayer : g.layer = f.layer) (hkept : g.kept = f.kept) (free : Variables) (index var : Nat) :
    (f.expansion r free index var).Repeats (g.expansion r free index var) := by
  unfold Fitted.expansion
  rw [hkept]
  exact List.foldl_rel ⟨hlayer, rfl, rfl, rfl⟩ fun j _ _ _ h => h.expand hpure free var j

end Expansion

/-! ### All layers -/

section Unroll

variable [BEq σ] [Hashable σ] [BEq κ] {r : Request σ κ Extended} {audit : Audit σ κ Extended}
  {rel : Dominance σ κ} {start s t : Session σ κ Extended} {free : Variables}
  {d : Diagram σ Extended}

omit [Hashable σ] in
/-- A layer of an exact diagram is left as it was selected. -/
theorem settleLayer_of_exact (hkind : r.kind = .exact) (audit : Audit σ κ Extended)
    (s : Session σ κ Extended) (d : Diagram σ Extended) : settleLayer audit r s d =
      ⟨(select r s d.layers.isEmpty d.pending).session,
        (select r s d.layers.isEmpty d.pending).layer,
        (select r s d.layers.isEmpty d.pending).kept.map (·.position), false, none⟩ := by
  unfold settleLayer fit
  dsimp only
  rw [hkind]
  split <;> rfl

variable [LawfulBEq σ]

/-- **A round of an exact diagram meets no fault**, if transitions are pure. -/
theorem unroll_exact (hkind : r.kind = .exact) (hpure : r.model.problem.Pure) {rounds : Nat}
    (hrounds : free.size ≤ rounds) : unroll audit r rounds free s d =
      match (settleLayer audit r s d).kept,
        r.branching free (d.pending.toList.map (·.state)) with
      | _ :: _, some v =>
        let x := (settleLayer audit r s d).expansion r free d.layers.length v
        unroll audit r (rounds - 1) (free.erase v) x.session
          (d.expanded (settleLayer audit r s d) x)
      | _, _ => ⟨(settleLayer audit r s d).reported d.layers.length,
          d.completed (settleLayer audit r s d), none⟩ := by
  have hclear : (settleLayer audit r s d).fault = none := by
    rw [settleLayer_of_exact hkind]
  rw [unroll_eq_round _ _ _ _ hrounds, unrollRound]
  simp only [hclear]
  cases (settleLayer audit r s d).kept with
  | nil => rfl
  | cons _ _ =>
    cases r.branching free (d.pending.toList.map (·.state)) with
    | none => rfl
    | some v =>
      dsimp only
      rw [((settleLayer audit r s d).expansion_repeats hpure rfl rfl free d.layers.length v).clear]

/-- What comes after a round that is not the last one. -/
theorem Rounds.next_exact (hkind : r.kind = .exact) (hpure : r.model.problem.Pure)
    (h : Rounds audit r start s free d) (hkept : (settleLayer audit r s d).kept ≠ [])
    {v : { v : Nat // v ∈ free }} (hv : r.branching free (d.pending.toList.map (·.state)) = some v)
    {x : Expansion σ κ Extended}
    (hx : (settleLayer audit r s d).expansion r free d.layers.length v = x) :
    Rounds audit r start x.session (free.erase v) (d.expanded (settleLayer audit r s d) x) :=
  h.next rfl (by rw [settleLayer_of_exact hkind]) hkept hv hx
    (hx ▸ (Fitted.expansion_repeats hpure rfl rfl free _ v).clear)

variable [LawfulBEq κ]

omit [LawfulBEq σ] [Hashable σ] in
/-- A round asks about its own depth only. -/
theorem settleLayer_entries_of_ne (hkind : r.kind = .exact) {depth : Nat}
    (hdepth : ∀ n ∈ d.pending, n.depth = depth) {k : Nat} (hk : k ≠ depth) (key : κ) :
    (settleLayer audit r s d).session.table.entries k key = s.table.entries k key := by
  rw [settleLayer_of_exact hkind]
  have hselected : Selected r (fun _ j _ => j = depth) s d.layers.isEmpty d.pending
      (select r s d.layers.isEmpty d.pending) :=
    select_selected r s d.layers.isEmpty d.pending fun n hn _ => hdepth n hn
  exact hselected.evolves.entries_eq (fun _ _ => hk) key

/-- **What a round leaves in the table stays there**: the rounds after it are about greater
depths. -/
theorem unroll_entries (hkind : r.kind = .exact) (hpure : r.model.problem.Pure) (rounds : Nat)
    (h : Rounds audit r start s free d) (hrounds : free.size ≤ rounds) {k : Nat}
    (hk : k ≤ r.residual.depth + d.layers.length) (key : κ) :
    (unroll audit r rounds free s d).session.table.entries k key =
      (settleLayer audit r s d).session.table.entries k key := by
  induction rounds using Nat.strong_induction_on generalizing s free d with
  | _ rounds ih =>
  rw [unroll_exact hkind hpure hrounds]
  cases hkept : (settleLayer audit r s d).kept with
  | nil => rfl
  | cons first rest =>
    cases hv : r.branching free (d.pending.toList.map (·.state)) with
    | none => rfl
    | some v =>
      dsimp only
      generalize hx : (settleLayer audit r s d).expansion r free d.layers.length v = x
      have hsize := Variables.size_erase_add_one v.2
      have hnext := h.next_exact hkind hpure (by rw [hkept]; exact List.cons_ne_nil _ _) hv hx
      have hlength : k < r.residual.depth +
          (d.expanded (settleLayer audit r s d) x).layers.length := Nat.lt_succ_of_le hk
      rw [ih (rounds - 1) (by omega) hnext (by omega) hlength.le,
        settleLayer_entries_of_ne hkind hnext.depth_pending hlength.ne, ← hx,
        (Fitted.quiet_expansion _ r free _ v).table]

/-- Two unrollings that are the same but for what they wrote to the journal. -/
structure Unrolled.Repeats (u u' : Unrolled σ κ Extended) : Prop where
  diagram : u'.diagram = u.diagram
  fault : u'.fault = u.fault
  table : ∀ k key, u'.session.table.entries k key = u.session.table.entries k key

/-- **A round goes as it went before**, and leaves the table with what it held. -/
theorem settleLayer_again (hkind : r.kind = .exact) (hpure : r.model.problem.Pure)
    (hrel : rel.IsOrder) (hdom : r.dominance = some rel) (hranks : rel.Ranks r.ranking)
    [Std.TransCmp r.ranking] (rounds : Nat) (h : Rounds audit r start s free d)
    (hrounds : free.size ≤ rounds) (hcache : t.cache = s.cache)
    (hvacant : s.table.VacantFrom (r.residual.depth + d.layers.length))
    (hheld : ∀ k key, t.table.entries k key =
      (unroll audit r rounds free s d).session.table.entries k key) :
    (settleLayer audit r t d).layer = (settleLayer audit r s d).layer ∧
      (settleLayer audit r t d).kept = (settleLayer audit r s d).kept ∧
      ∀ k key, (settleLayer audit r t d).session.table.entries k key =
        t.table.entries k key := by
  have hsettled := unroll_entries hkind hpure rounds h hrounds le_rfl
  obtain ⟨hlayer, hkept, htable⟩ := select_again hrel hdom hranks h.depth_pending h.distinct.1
    d.layers.isEmpty hcache (hvacant _ le_rfl) fun key => by
      rw [hheld, hsettled, settleLayer_of_exact hkind]
  refine ⟨?_, ?_, fun k key => ?_⟩
  · rw [settleLayer_of_exact hkind, settleLayer_of_exact hkind, hlayer]
  · rw [settleLayer_of_exact hkind, settleLayer_of_exact hkind, hkept]
  · by_cases hk : k = r.residual.depth + d.layers.length
    · subst hk
      rw [hheld, hsettled, settleLayer_of_exact hkind, settleLayer_of_exact hkind]
      exact htable key
    · exact settleLayer_entries_of_ne hkind h.depth_pending hk key

/-- **Unrolled from what an unrolling left, a diagram comes out the same.** -/
theorem unroll_again (hkind : r.kind = .exact) (hpure : r.model.problem.Pure) (hrel : rel.IsOrder)
    (hdom : r.dominance = some rel) (hranks : rel.Ranks r.ranking) [Std.TransCmp r.ranking]
    (rounds : Nat) (h : Rounds audit r start s free d) (hrounds : free.size ≤ rounds)
    (hcache : t.cache = s.cache)
    (hvacant : s.table.VacantFrom (r.residual.depth + d.layers.length))
    (hheld : ∀ k key, t.table.entries k key =
      (unroll audit r rounds free s d).session.table.entries k key) :
    (unroll audit r rounds free s d).Repeats (unroll audit r rounds free t d) := by
  induction rounds using Nat.strong_induction_on generalizing s t free d with
  | _ rounds ih =>
  obtain ⟨hlayer, hkept, htable⟩ := settleLayer_again hkind hpure hrel hdom hranks rounds h hrounds
    hcache hvacant hheld
  have hreduced : (settleLayer audit r t d).reduced = (settleLayer audit r s d).reduced := by
    rw [settleLayer_of_exact hkind, settleLayer_of_exact hkind]
  have hcompleted : d.completed (settleLayer audit r t d) =
      d.completed (settleLayer audit r s d) := by
    unfold Diagram.completed
    rw [hlayer, hreduced]
  rw [unroll_exact hkind hpure hrounds] at hheld ⊢
  rw [unroll_exact hkind hpure hrounds, hkept, hcompleted]
  cases hfirst : (settleLayer audit r s d).kept with
  | nil =>
    rw [hfirst] at hheld
    exact ⟨rfl, rfl, fun k key => (htable k key).trans (hheld k key)⟩
  | cons first rest =>
    rw [hfirst] at hheld
    cases hv : r.branching free (d.pending.toList.map (·.state)) with
    | none =>
      rw [hv] at hheld
      exact ⟨rfl, rfl, fun k key => (htable k key).trans (hheld k key)⟩
    | some v =>
      rw [hv] at hheld
      dsimp only at hheld ⊢
      have hagain := Fitted.expansion_repeats hpure hlayer hkept free d.layers.length v
      have hquiet := (settleLayer audit r s d).quiet_expansion r free d.layers.length v
      have hquiet' := (settleLayer audit r t d).quiet_expansion r free d.layers.length v
      generalize hx : (settleLayer audit r s d).expansion r free d.layers.length v = x
        at hagain hquiet hheld ⊢
      generalize (settleLayer audit r t d).expansion r free d.layers.length v = y
        at hagain hquiet' ⊢
      have hexpanded : d.expanded (settleLayer audit r t d) y =
          d.expanded (settleLayer audit r s d) x := by
        unfold Diagram.expanded
        rw [hagain.layer, hagain.pending, hreduced]
      have hsize := Variables.size_erase_add_one v.2
      have hnext := h.next_exact hkind hpure (by rw [hfirst]; exact List.cons_ne_nil _ _) hv hx
      rw [hexpanded]
      refine ih (rounds - 1) (by omega) hnext (by omega) ?_ (fun k hk key => ?_) fun k key => ?_
      · rw [hquiet.cache, hquiet'.cache, settleLayer_of_exact hkind, settleLayer_of_exact hkind]
        exact (selected r t _ _).cache.trans (hcache.trans (selected r s _ _).cache.symm)
      · have hlt : r.residual.depth + d.layers.length < k := hk
        rw [hquiet.table, settleLayer_entries_of_ne hkind h.depth_pending hlt.ne']
        exact hvacant k hlt.le key
      · rw [hquiet'.table, htable]
        exact hheld k key

omit [LawfulBEq σ] [LawfulBEq κ] in
/-- What a compilation leaves in the table is what it left there when the diagram was
unrolled. -/
theorem Request.table_compile (r : Request σ κ Extended) (s : Session σ κ Extended) :
    (r.compile s).session.table = (r.unroll r.audit s).session.table := by
  unfold compile compileWith
  dsimp only
  split
  · rfl
  · exact (r.evaluate_session _ s _).2.2

omit [LawfulBEq σ] [LawfulBEq κ] in
/-- What is told of a diagram does not depend on the session either. -/
theorem Unrolled.Repeats.compile
    (h : (r.unroll r.audit s).Repeats (r.unroll r.audit t)) :
    (r.compile t).outcome = (r.compile s).outcome ∧
      (r.compile t).diagram = (r.compile s).diagram := by
  unfold Request.compile Request.compileWith
  dsimp only
  rw [h.fault, h.diagram]
  split
  · exact ⟨rfl, rfl⟩
  · obtain ⟨houtcome, hdiagram, _⟩ := r.evaluate_session (r.unroll r.audit s).session
      (r.unroll r.audit t).session (r.unroll r.audit s).diagram
    exact ⟨houtcome, hdiagram⟩

omit [LawfulBEq κ] in
/-- An exact diagram is compiled without a fault, unless its bounds are checked. -/
theorem Request.exists_compile_exact (hkind : r.kind = .exact) (hpure : r.model.problem.Pure)
    (hchecks : r.checks.watches = false) (s : Session σ κ Extended) :
    ∃ report, (r.compile s).outcome = .ok report := by
  have hclear : (r.unroll r.audit s).fault = none :=
    unroll_fault_eq_none _ .root le_rfl fun s free d _ =>
      ⟨by rw [settleLayer_of_exact hkind], fun v _ =>
        (Fitted.expansion_repeats hpure rfl rfl free _ v).clear⟩
  unfold compile compileWith
  dsimp only
  rw [hclear]
  dsimp only
  unfold evaluate
  rw [hchecks]
  exact ⟨_, rfl⟩

/-- **Compiled again, against the table that the first compilation left, an exact diagram
comes out the same**, if the ranking puts each state in front of those that it dominates:
the same is told of it, it has the same nodes and edges, and the table is left with the same
entries. -/
theorem Request.compile_repeats (hkind : r.kind = .exact) (hpure : r.model.problem.Pure)
    (hrel : rel.IsOrder) (hdom : r.dominance = some rel) (hranks : rel.Ranks r.ranking)
    [Std.TransCmp r.ranking] (hcache : s.cache.layers.size = 0)
    (hvacant : s.table.VacantFrom r.residual.depth) :
    (r.compile (r.compile s).session).outcome = (r.compile s).outcome ∧
      (r.compile (r.compile s).session).diagram = (r.compile s).diagram ∧
      (∀ k key, (r.compile (r.compile s).session).session.table.entries k key =
        (r.compile s).session.table.entries k key) ∧
      (r.checks.watches = false → ∃ report, (r.compile s).outcome = .ok report) := by
  have hsame : (r.compile s).session.cache = s.cache := by
    have hsize := (r.compile_works s).size_cache.trans hcache
    exact congrArg Cache.mk
      ((Array.eq_empty_of_size_eq_zero hsize).trans (Array.eq_empty_of_size_eq_zero hcache).symm)
  have hagain : (r.unroll r.audit s).Repeats (r.unroll r.audit (r.compile s).session) :=
    unroll_again hkind hpure hrel hdom hranks _ .root le_rfl hsame hvacant fun k key => by
      rw [r.table_compile]
      rfl
  refine ⟨hagain.compile.1, hagain.compile.2, fun k key => ?_,
    fun hchecks => r.exists_compile_exact hkind hpure hchecks s⟩
  rw [r.table_compile, r.table_compile]
  exact hagain.table k key

end Unroll

theorem Request.compile_repeats_twoPicks :
    let r := twoPicksRequest .exact (some upwards)
    (r.compile (r.compile .fresh).session).outcome.toOption.map (fun told =>
      (told.isExact, told.bestValue)) = some (true, some (.finite 2)) := by
  intro r
  have hpure : r.model.problem.Pure := (twoPicksRequest_regular .exact (some upwards)).isPure
  -- The greater numbers dominate the smaller ones, and are ranked before them.
  have hranks : upwards.Ranks r.ranking := by
    intro a b _ _ _ hne hle
    exact Nat.compare_eq_gt.2 (lt_of_le_of_ne (of_decide_eq_true hle) hne)
  have htotal : Std.TransCmp r.ranking :=
    inferInstanceAs (Std.TransCmp (compare : Nat → Nat → Ordering))
  obtain ⟨houtcome, _⟩ := Request.compile_repeats (r := r) rfl hpure upwards_isOrder rfl hranks
    (s := .fresh) rfl fun _ _ _ => rfl
  rw [houtcome]
  decide +kernel

end DiagramSearch
