/-
# Rules that look at the layer

A branching rule is shown the states of the layer to come, and may make its choice
depend on them.  In the course of one compilation that makes no difference: the rule is
asked about fewer free variables each time, so what it says is what some rule says that
looks at the free variables alone.  From one compilation to the next that may be another
one, and another order of the variables.

Where the optimum does not depend on the order, all of these rules agree on what a
sub-problem is worth.

* `unroll_exists_static`, `Request.exists_static`: **a compilation follows a rule that
  looks at the free variables alone**;
* `Problem.OrderFree`: the optimum does not depend on the order of the variables, and
  then no trail gains on it in any order (`Problem.Wanders.add_optimum_le`);
* `Problem.Swappable.orderFree`: that is so **where decisions can be swapped**;
* `Request.Pliable.compiles`: what a compilation brings about, whatever its rule looks
  at.
-/

import DiagramSearch.Proofs.Intercepting

namespace DiagramSearch

open Extended

variable {σ κ : Type}

/-! ### Picking a variable once -/

namespace Branching

variable {b : Branching σ} {free free' : Variables} {states : List σ}

/-- The rule that picks a given variable from a given set, and else what another one
picks. -/
def pick (b : Branching σ) (free : Variables) (x : { x : Nat // x ∈ free }) : Branching σ :=
  fun free' states => if h : free' = free then some ⟨x, h ▸ x.2⟩ else b free' states

theorem pick_self (x : { x : Nat // x ∈ free }) : b.pick free x free states = some x :=
  dif_pos rfl

theorem pick_of_ne (x : { x : Nat // x ∈ free }) (h : free' ≠ free) :
    b.pick free x free' states = b free' states :=
  dif_neg h

theorem Static.pick (hb : b.Static) (x : { x : Nat // x ∈ free }) : (b.pick free x).Static := by
  intro free' states states'
  unfold Branching.pick
  split
  · rfl
  · exact hb free' states states'

theorem Total.pick (hb : b.Total) (x : { x : Nat // x ∈ free }) : (b.pick free x).Total := by
  intro free' states hsize
  unfold Branching.pick
  split
  · rfl
  · exact hb free' states hsize

theorem least_static : (least : Branching σ).Static := fun _ _ _ => rfl

theorem least_total : (least : Branching σ).Total := by
  intro free states hsize
  change (List.head? free.toList.attach).isSome = true
  rw [List.isSome_head?]
  simpa [Variables.size] using hsize

/-- Counting around ends at a free variable. -/
theorem cyclic_total (index : List σ → Int) : (cyclic index).Total := by
  intro free states hsize
  have hlow := Int.emod_nonneg (index states) (Int.natCast_ne_zero.2 hsize)
  have hhigh := Int.emod_lt_of_pos (index states) (Int.natCast_pos.2 (Nat.pos_of_ne_zero hsize))
  have hlt : (index states % free.size).toNat < (candidates free).length := by
    have hlength : (candidates free).length = free.size := List.length_attach
    omega
  exact Option.isSome_iff_exists.2 ⟨_, List.getElem?_eq_getElem hlt⟩

end Branching

/-! ### What one compilation is told -/

section Unroll

variable {V : Type} [BEq σ] [Hashable σ] [BEq κ] [Value V]

/-- **What a rule says in the course of an unrolling is what a rule says that looks at
the free variables alone**, or any rule that agrees with it on the sets that may still
come up. -/
theorem unroll_exists_static (audit : Audit σ κ V) (r : Request σ κ V) (htotal : r.branching.Total)
    (rounds : Nat) (free : Variables) (session : Session σ κ V) (d : Diagram σ V)
    (h : free.size ≤ rounds) : ∃ b : Branching σ, b.Static ∧ b.Total ∧ ∀ b' : Branching σ,
      (∀ free' states, free'.size ≤ free.size → b' free' states = b free' states) →
        unroll audit { r with branching := b' } rounds free session d =
          unroll audit r rounds free session d := by
  induction rounds generalizing free session d with
  | zero =>
    refine ⟨.least, Branching.least_static, Branching.least_total, fun b' _ => ?_⟩
    have hnone : ∀ b : Branching σ, b free (d.pending.toList.map (·.state)) = none :=
      fun _ => Branching.eq_none_of_size (Nat.le_zero.1 h)
    rw [unroll_eq_round _ _ _ _ h, unroll_eq_round _ _ _ _ h]
    refine unrollRound_congr ((hnone _).trans (hnone _).symm) fun v hv => ?_
    cases (hnone _).symm.trans hv
  | succ rounds ih =>
    cases hchoice : r.branching free (d.pending.toList.map (·.state)) with
    | none =>
      -- Nothing is free.
      have hsize : free.size = 0 := by
        by_contra hne
        have hsome := htotal free (d.pending.toList.map (·.state)) hne
        rw [hchoice] at hsome
        cases hsome
      refine ⟨.least, Branching.least_static, Branching.least_total, fun b' _ => ?_⟩
      rw [unroll_eq_round _ _ _ _ h, unroll_eq_round _ _ _ _ h]
      refine unrollRound_congr ?_ fun v hv => ?_
      · rw [hchoice]
        exact Branching.eq_none_of_size hsize
      · cases hchoice.symm.trans hv
    | some v =>
      have hsize := Variables.size_erase_add_one v.2
      obtain ⟨b, hstatic, hbtotal, hsame⟩ := ih (free.erase v) _
        (d.expanded (settleLayer audit r session d)
          ((settleLayer audit r session d).expansion r free d.layers.length v)) (by omega)
      refine ⟨b.pick free v, hstatic.pick v, hbtotal.pick v, fun b' hagree => ?_⟩
      rw [unroll_eq_round _ _ _ _ h, unroll_eq_round _ _ _ _ h]
      refine unrollRound_congr ?_ fun v' hv' x hx => ?_
      · rw [hagree _ _ le_rfl, Branching.pick_self, hchoice]
      · obtain rfl := Option.some.inj (hchoice.symm.trans hv')
        obtain rfl := hx
        -- The set that was asked about does not come up again.
        refine hsame b' fun free' states hle => ?_
        rw [hagree free' states (by omega), Branching.pick_of_ne]
        rintro rfl
        omega

/-- **A compilation follows a rule that looks at the free variables alone.** -/
theorem Request.exists_static (r : Request σ κ V) (htotal : r.branching.Total)
    (audit : Audit σ κ V) (session : Session σ κ V) : ∃ b : Branching σ, b.Static ∧ b.Total ∧
      Request.compileWith { r with branching := b } audit session =
        r.compileWith audit session := by
  obtain ⟨b, hstatic, hbtotal, hsame⟩ := unroll_exists_static audit r htotal _
    (r.residual.free r.model.problem.variables) session (Diagram.rooted r.residual) le_rfl
  refine ⟨b, hstatic, hbtotal, ?_⟩
  have hunroll : Request.unroll { r with branching := b } audit session = r.unroll audit session :=
    hsame b fun _ _ _ => rfl
  unfold compileWith
  rw [hunroll]
  rfl

end Unroll

/-! ### Problems whose variables may be taken in any order -/

/-- The optimum does not depend on the order in which the variables are taken. -/
def Problem.OrderFree (p : Problem σ Extended) : Prop :=
  ∀ b b' : Branching σ, b.Static → b.Total → b'.Static → b'.Total →
    ∀ free s, p.optimum b free s = p.optimum b' free s

section OrderFree

variable {p : Problem σ Extended} {b : Branching σ}

theorem Problem.OrderFree.optimum_eq (h : p.OrderFree) (hstatic : b.Static) (htotal : b.Total)
    (free : Variables) (s : σ) : p.optimum b free s = p.optimum .least free s :=
  h _ _ hstatic htotal Branching.least_static Branching.least_total free s

/-- A decision on any of the free variables is worth at most the optimum. -/
theorem Problem.OrderFree.le_optimum (h : p.OrderFree) {free : Variables} {x : Nat}
    (hx : x ∈ free) {s : σ} {d : Decision} (hd : d ∈ p.domain x s) :
    p.cost s d + p.optimum .least (free.erase x) (p.transition 0 s d) ≤
      p.optimum .least free s := by
  have hpick := h.optimum_eq (Branching.least_static.pick ⟨x, hx⟩)
    (Branching.least_total.pick ⟨x, hx⟩)
  rw [← hpick, ← hpick]
  have hself : (Branching.least.pick free ⟨x, hx⟩ : Branching σ) free [] = some ⟨x, hx⟩ :=
    Branching.pick_self _
  exact Problem.le_optimum hself hd

/-- **No trail gains on the optimum**, whatever the order of its decisions. -/
theorem Problem.Wanders.add_optimum_le (hp : p.OrderFree) {free free' : Variables} {s s' : σ}
    {v v' : Extended} {ds : Path} (h : p.Wanders free s v ds free' s' v') :
    v' + p.optimum .least free' s' ≤ v + p.optimum .least free s := by
  induction h with
  | refl => exact le_rfl
  | @step ds free' s' v' x d _ hx hd ih =>
    calc v' + p.cost s' d + p.optimum .least (free'.erase x) (p.transition 0 s' d)
        = v' + (p.cost s' d + p.optimum .least (free'.erase x) (p.transition 0 s' d)) :=
          add_assoc ..
      _ ≤ v' + p.optimum .least free' s' := add_le_add_right (hp.le_optimum hx hd) v'
      _ ≤ v + p.optimum .least free s := ih

/-- What is sound in one order is sound in all. -/
theorem Model.Sound.of_orderFree {m : Model σ Extended} (h : m.Sound .least)
    (hp : m.problem.OrderFree) (hstatic : b.Static) (htotal : b.Total) : m.Sound b where
  admissible s free := by
    rw [hp.optimum_eq hstatic htotal]
    exact h.admissible s free
  covering xs free source v d hd hmem := by
    rw [hp.optimum_eq hstatic htotal, hp.optimum_eq hstatic htotal]
    exact h.covering xs free source v d hd hmem

end OrderFree

/-! ### Decisions that can be swapped -/

/-- Two decisions, one after the other, may as well be taken the other way round. -/
def Problem.Swappable (p : Problem σ Extended) : Prop :=
  ∀ s x y, x ≠ y → ∀ d ∈ p.domain x s, ∀ e ∈ p.domain y (p.transition 0 s d),
    e ∈ p.domain y s ∧ d ∈ p.domain x (p.transition 0 s e) ∧
      p.transition 0 (p.transition 0 s d) e = p.transition 0 (p.transition 0 s e) d ∧
      p.cost s d + p.cost (p.transition 0 s d) e = p.cost s e + p.cost (p.transition 0 s e) d

namespace Problem.Swappable

variable {p : Problem σ Extended} {b : Branching σ} {free : Variables} {x y : Nat} {s : σ}
  {d e : Decision}

/-- What two decisions and the rest are worth, either way round. -/
theorem cost_add (h : p.Swappable) (hxy : x ≠ y) (hd : d ∈ p.domain x s)
    (he : e ∈ p.domain y (p.transition 0 s d)) :
    p.cost s d + (p.cost (p.transition 0 s d) e +
        p.optimum b ((free.erase x).erase y) (p.transition 0 (p.transition 0 s d) e)) =
      p.cost s e + (p.cost (p.transition 0 s e) d +
        p.optimum b ((free.erase y).erase x) (p.transition 0 (p.transition 0 s e) d)) := by
  obtain ⟨_, _, hstate, hcost⟩ := h s x y hxy d hd e he
  rw [← add_assoc, ← add_assoc, hcost, hstate, Variables.erase_right_comm]

/-- **Any of the free variables may be decided on first.** -/
theorem decide_first (h : p.Swappable) (hb : b.Total) (hx : x ∈ free) (s : σ) :
    (∀ d ∈ p.domain x s, p.cost s d + p.optimum b (free.erase x) (p.transition 0 s d) ≤
      p.optimum b free s) ∧
    (p.optimum b free s ≠ negInf → ∃ d ∈ p.domain x s,
      p.optimum b free s ≤ p.cost s d + p.optimum b (free.erase x) (p.transition 0 s d)) := by
  induction hn : free.size generalizing free x s with
  | zero => exact absurd hx (by rw [Variables.mem_def, List.length_eq_zero_iff.1 hn]; simp)
  | succ n ih =>
    obtain ⟨⟨y, hy⟩, hpick⟩ := Option.isSome_iff_exists.1 (hb free [] (by omega))
    rcases eq_or_ne x y with rfl | hxy
    · exact ⟨fun d hd => Problem.le_optimum hpick hd, fun hne =>
        (Problem.exists_optimum_eq hpick hne).imp fun d ⟨hd, heq⟩ => ⟨hd, heq.ge⟩⟩
    · -- The variable that is picked comes second, or the other one does.
      have hxy' : x ∈ free.erase y := Variables.mem_erase.2 ⟨hx, hxy⟩
      have hyx' : y ∈ free.erase x := Variables.mem_erase.2 ⟨hy, hxy.symm⟩
      have hsizex := Variables.size_erase_add_one hx
      have hsizey := Variables.size_erase_add_one hy
      refine ⟨fun d hd => ?_, fun hne => ?_⟩
      · by_cases hneg : p.optimum b (free.erase x) (p.transition 0 s d) = negInf
        · rw [hneg, add_negInf]
          exact negInf_le _
        · obtain ⟨e, he, hle⟩ := (ih hyx' (p.transition 0 s d) (by omega)).2 hneg
          obtain ⟨he', hd', _, _⟩ := h s x y hxy d hd e he
          calc p.cost s d + p.optimum b (free.erase x) (p.transition 0 s d)
              ≤ _ := add_le_add_right hle _
            _ = _ := h.cost_add hxy hd he
            _ ≤ p.cost s e + p.optimum b (free.erase y) (p.transition 0 s e) :=
              add_le_add_right ((ih hxy' _ (by omega)).1 d hd') _
            _ ≤ p.optimum b free s := Problem.le_optimum hpick he'
      · obtain ⟨e, he, heq⟩ := Problem.exists_optimum_eq hpick hne
        have hrest : p.optimum b (free.erase y) (p.transition 0 s e) ≠ negInf := by
          intro hneg
          rw [hneg, add_negInf] at heq
          exact hne heq.symm
        obtain ⟨d, hd, hle⟩ := (ih hxy' _ (by omega)).2 hrest
        obtain ⟨hd', he', _, _⟩ := h s y x hxy.symm e he d hd
        refine ⟨d, hd', ?_⟩
        calc p.optimum b free s
            = p.cost s e + p.optimum b (free.erase y) (p.transition 0 s e) := heq.symm
          _ ≤ _ := add_le_add_right hle _
          _ = _ := h.cost_add hxy.symm he hd
          _ ≤ p.cost s d + p.optimum b (free.erase x) (p.transition 0 s d) :=
            add_le_add_right ((ih hyx' _ (by omega)).1 e he') _

/-- **Where decisions can be swapped, the optimum does not depend on the order.** -/
theorem orderFree (h : p.Swappable) : p.OrderFree := by
  intro b b' _ hb _ hb' free s
  induction hn : free.size generalizing free s with
  | zero =>
    rw [Problem.optimum_of_none (Branching.eq_none_of_size hn),
      Problem.optimum_of_none (Branching.eq_none_of_size hn)]
  | succ n ih =>
    obtain ⟨⟨x, hx⟩, hpick⟩ := Option.isSome_iff_exists.1 (hb' free [] (by omega))
    have hsize := Variables.size_erase_add_one hx
    have hrest : ∀ s', p.optimum b (free.erase x) s' = p.optimum b' (free.erase x) s' :=
      fun s' => ih (free.erase x) s' (by omega)
    obtain ⟨hbest, hreach⟩ := h.decide_first hb hx s
    refine le_antisymm ?_ ?_
    · by_cases hneg : p.optimum b free s = negInf
      · rw [hneg]
        exact negInf_le _
      · obtain ⟨d, hd, hle⟩ := hreach hneg
        rw [hrest] at hle
        exact hle.trans (Problem.le_optimum hpick hd)
    · by_cases hneg : p.optimum b' free s = negInf
      · rw [hneg]
        exact negInf_le _
      · obtain ⟨d, hd, heq⟩ := Problem.exists_optimum_eq hpick hneg
        rw [← hrest] at heq
        exact heq.ge.trans (hbest d hd)

end Problem.Swappable

/-! ### Compiling whatever the rule looks at -/

/-- What is asked of a request whose rule may look at the layer. -/
structure Request.Pliable (r : Request σ κ Extended) : Prop where
  isPure : r.model.problem.Pure
  focused : r.model.problem.Focused
  finite : ∀ s d, Value.isFinite (r.model.problem.cost s d) = true
  total : r.branching.Total
  orderFree : r.model.problem.OrderFree
  sound : r.model.Sound .least

namespace Request.Pliable

variable {r : Request σ κ Extended}

theorem regular (h : r.Pliable) {b : Branching σ} (hstatic : b.Static) (htotal : b.Total) :
    Request.Regular { r with branching := b } :=
  ⟨h.isPure, h.finite, hstatic, h.sound.of_orderFree h.orderFree hstatic htotal⟩

variable [BEq σ] [LawfulBEq σ] [Hashable σ] [BEq κ]

/-- Compiling exactly tells what a sub-problem is worth in any order. -/
theorem appraises (h : r.Pliable) {b : Branching σ} (hstatic : b.Static) (htotal : b.Total) :
    r.Appraises b := by
  -- Each sub-problem is compiled by a rule of its own.
  have hworth : ∀ session s, ∃ b' : Branching σ, b'.Static ∧ b'.Total ∧
      r.worth session s = Request.worth { r with branching := b' } session s := by
    intro session s
    obtain ⟨b', hstatic', htotal', hsame⟩ := (r.exactly s).exists_static h.total
      (fun session _ _ => (session, none)) session.aside
    refine ⟨b', hstatic', htotal', ?_⟩
    unfold worth
    rw [← hsame]
    rfl
  refine ⟨fun session s v hv => ?_, fun session s hne => ?_⟩
  · obtain ⟨b', hstatic', htotal', heq⟩ := hworth session s
    rw [heq] at hv
    rw [h.orderFree b b' hstatic htotal hstatic' htotal']
    exact (h.regular hstatic' htotal').appraises.worth_le session s v hv
  · obtain ⟨b', hstatic', htotal', heq⟩ := hworth session s
    rw [h.orderFree b b' hstatic htotal hstatic' htotal'] at hne ⊢
    rw [heq]
    exact (h.regular hstatic' htotal').appraises.le_worth session s hne

/-- **What a compilation brings about, whatever its rule looks at**: it meets no fault,
and it is a compilation by a rule that looks at the free variables alone. -/
theorem compiles (h : r.Pliable)
    (hroot : (r.residual.free r.model.problem.variables).size = 0 → r.residual.bound = posInf)
    (session : Session σ κ Extended) : ∃ b : Branching σ, b.Static ∧ b.Total ∧
      Compiles { r with branching := b } session (r.compile session) := by
  obtain ⟨b, hstatic, htotal, hsame⟩ := r.exists_static h.total r.audit session
  have hregular := h.regular hstatic htotal
  obtain ⟨report, hok⟩ := Request.exists_compileWith_ok hregular r.audit_discreet
    ((h.appraises hstatic htotal).audit_lenient fun _ _ => h.focused)
    (fun _ _ hnone => hroot (htotal.size_eq_zero hnone)) session
  have hcompiles := (Request.compileWith_compiles hregular.tame r.audit_discreet session hok).1
  rw [hsame] at hcompiles
  exact ⟨b, hstatic, htotal, hcompiles⟩

end Request.Pliable
end DiagramSearch
