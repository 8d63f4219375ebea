/-
# The rounds of an unrolling

A round completes the pending layer and, if a node is kept and a variable is
chosen, expands it.  `Rounds` holds of the moments right before a round, so an
invariant of unrolling is an induction on it; nothing is asked of the model, the
branching rule or the values.

* `unroll_lastRound`: an unrolling without a fault comes to a last round, in
  which no node is kept or no variable is chosen.  The rounds that are granted
  suffice, since each of them uses up a free variable;
* `unroll_fault_eq_none`: an unrolling meets no fault if none of its rounds does;
* `unroll_eq_round`, `unroll_eq`: unrolling goes round by round, and no more rounds
  are taken than there are free variables, however many are granted.
-/

import DiagramSearch.Diagram.Unrolling

namespace DiagramSearch

variable {σ κ V : Type} [BEq σ] [Hashable σ] [BEq κ] [Value V]

/-- The diagram once its pending layer is completed. -/
def Diagram.completed (d : Diagram σ V) (f : Fitted σ κ V) : Diagram σ V :=
  { d with
    layers := f.layer :: d.layers
    pending := #[]
    lastExact := d.lastExactAfter f.reduced }

/-- The session in which the kept nodes of a layer of a given number are
expanded. -/
def Fitted.reported (f : Fitted σ κ V) (index : Nat) : Session σ κ V :=
  f.session.note (.layerDone index f.kept.length)

/-- The expansion of the kept nodes of a layer of a given number. -/
def Fitted.expansion (f : Fitted σ κ V) (r : Request σ κ V) (free : Variables) (index var : Nat) :
    Expansion σ κ V :=
  f.kept.foldl (Expansion.expand r free var) ⟨f.reported index, f.layer, #[], none⟩

/-- The diagram once its completed layer is expanded. -/
def Diagram.expanded (d : Diagram σ V) (f : Fitted σ κ V) (x : Expansion σ κ V) : Diagram σ V :=
  { d with
    layers := x.layer :: d.layers
    pending := x.pending
    lastExact := d.lastExactAfter f.reduced }

/-- The moments right before a round: the session, the free variables and the
diagram. -/
inductive Rounds (audit : Audit σ κ V) (r : Request σ κ V) (start : Session σ κ V) :
    Session σ κ V → Variables → Diagram σ V → Prop where
  | root : Rounds audit r start start (r.residual.free r.model.problem.variables)
      (Diagram.rooted r.residual)
  | next {session : Session σ κ V} {free : Variables} {d : Diagram σ V}
      {f : Fitted σ κ V} {v : { v : Nat // v ∈ free }} {x : Expansion σ κ V}
      (h : Rounds audit r start session free d) (hf : settleLayer audit r session d = f)
      (hfault : f.fault = none) (hkept : f.kept ≠ [])
      (hv : r.branching free (d.pending.toList.map (·.state)) = some v)
      (hx : f.expansion r free d.layers.length v = x) (hxfault : x.fault = none) :
      Rounds audit r start x.session (free.erase v) (d.expanded f x)

/-- A round after which a diagram is complete. -/
structure LastRound (audit : Audit σ κ V) (r : Request σ κ V) (session : Session σ κ V)
    (free : Variables) (d : Diagram σ V) (u : Unrolled σ κ V) : Prop where
  fault : (settleLayer audit r session d).fault = none
  done : (settleLayer audit r session d).kept = [] ∨
    r.branching free (d.pending.toList.map (·.state)) = none
  eq : u = ⟨(settleLayer audit r session d).reported d.layers.length,
    d.completed (settleLayer audit r session d), none⟩

variable {audit : Audit σ κ V} {r : Request σ κ V} {start session : Session σ κ V}
  {free : Variables} {d : Diagram σ V}

/-- **What one round does**: it meets a fault, or it is the last one, or it leads
to the next one. -/
theorem unroll_cases (audit : Audit σ κ V) (r : Request σ κ V) (rounds : Nat) (free : Variables)
    (session : Session σ κ V) (d : Diagram σ V) (hrounds : free.size ≤ rounds) :
    (∃ fault, (settleLayer audit r session d).fault = some fault ∧
      (unroll audit r rounds free session d).fault = some fault) ∨
    LastRound audit r session free d (unroll audit r rounds free session d) ∨
    ∃ n v, rounds = n + 1 ∧ (settleLayer audit r session d).fault = none ∧
      (settleLayer audit r session d).kept ≠ [] ∧
      r.branching free (d.pending.toList.map (·.state)) = some v ∧
      ∃ x, (settleLayer audit r session d).expansion r free d.layers.length v = x ∧
        ((∃ fault, x.fault = some fault ∧
          (unroll audit r rounds free session d).fault = some fault) ∨
        (x.fault = none ∧ unroll audit r rounds free session d =
          unroll audit r n (free.erase v) x.session
            (d.expanded (settleLayer audit r session d) x))) := by
  generalize hf : settleLayer audit r session d = f
  cases hfault : f.fault with
  | some fault =>
    refine .inl ⟨fault, rfl, ?_⟩
    rw [unroll]
    simp only [hf, hfault]
  | none =>
    by_cases hdone : f.kept = [] ∨ r.branching free (d.pending.toList.map (·.state)) = none
    · -- The layer is completed, and that is all.
      refine .inr (.inl ⟨by rw [hf, hfault], by rw [hf]; exact hdone, ?_⟩)
      rw [unroll]
      simp only [hf, hfault]
      rcases hdone with hkept | hnone
      · simp only [hkept, Fitted.reported, Diagram.completed]
      · simp only [hnone, Fitted.reported, Diagram.completed]
        split
        · rename_i hsome
          cases hsome
        · rfl
    · obtain ⟨hkept, hsome⟩ := not_or.1 hdone
      obtain ⟨v, hv⟩ := Option.ne_none_iff_exists'.1 hsome
      obtain ⟨first, others, hcons⟩ := List.exists_cons_of_ne_nil hkept
      cases rounds with
      | zero => exact absurd (Branching.eq_none_of_size (Nat.le_zero.1 hrounds)) hsome
      | succ n =>
        refine .inr (.inr ⟨n, v, rfl, rfl, hkept, hv, _, rfl, ?_⟩)
        have hx : f.expansion r free d.layers.length v = (first :: others).foldl
            (Expansion.expand r free v)
            ⟨f.session.note (.layerDone d.layers.length f.kept.length), f.layer, #[], none⟩ := by
          rw [Fitted.expansion, hcons, Fitted.reported, hcons]
        rw [unroll]
        simp only [hf, hfault, hcons, hv]
        rw [hcons] at hx
        rw [← hx]
        cases hxfault : (f.expansion r free d.layers.length v).fault with
        | some fault => exact .inl ⟨fault, rfl, rfl⟩
        | none => exact .inr ⟨rfl, rfl⟩

/-- **An unrolling without a fault comes to a last round.** -/
theorem unroll_lastRound (rounds : Nat) (h : Rounds audit r start session free d)
    (hrounds : free.size ≤ rounds) (hok : (unroll audit r rounds free session d).fault = none) :
    ∃ session' free' d', Rounds audit r start session' free' d' ∧
      LastRound audit r session' free' d' (unroll audit r rounds free session d) := by
  induction rounds generalizing session free d with
  | zero =>
    rcases unroll_cases audit r 0 free session d hrounds with ⟨fault, _, hfault⟩ | hlast |
      ⟨n, _, hn, _⟩
    · rw [hfault] at hok
      cases hok
    · exact ⟨session, free, d, h, hlast⟩
    · exact absurd hn (Nat.succ_ne_zero n).symm
  | succ rounds ih =>
    rcases unroll_cases audit r (rounds + 1) free session d hrounds with
      ⟨fault, _, hfault⟩ | hlast | ⟨n, v, hn, hfault, hkept, hv, x, hx, hnext⟩
    · rw [hfault] at hok
      cases hok
    · exact ⟨session, free, d, h, hlast⟩
    · obtain rfl : rounds = n := Nat.succ.inj hn
      rcases hnext with ⟨fault, _, hxfault⟩ | ⟨hxfault, heq⟩
      · rw [hxfault] at hok
        cases hok
      · rw [heq] at hok ⊢
        have hsize := Variables.size_erase_add_one v.2
        exact ih (h.next rfl hfault hkept hv hx hxfault) (by omega) hok

/-- So does that of a whole diagram. -/
theorem Request.unroll_lastRound (hok : (r.unroll audit start).fault = none) :
    ∃ session free d, Rounds audit r start session free d ∧
      LastRound audit r session free d (r.unroll audit start) :=
  DiagramSearch.unroll_lastRound _ .root (Nat.le_refl _) hok

/-- **An unrolling meets no fault if none of its rounds does.** -/
theorem unroll_fault_eq_none (rounds : Nat) (h : Rounds audit r start session free d)
    (hrounds : free.size ≤ rounds)
    (hclean : ∀ session free d, Rounds audit r start session free d →
      (settleLayer audit r session d).fault = none ∧
      ∀ v, r.branching free (d.pending.toList.map (·.state)) = some v →
        ((settleLayer audit r session d).expansion r free d.layers.length v).fault = none) :
    (unroll audit r rounds free session d).fault = none := by
  induction rounds generalizing session free d with
  | zero =>
    rcases unroll_cases audit r 0 free session d hrounds with ⟨fault, hfault, _⟩ | hlast |
      ⟨n, _, hn, _⟩
    · rw [(hclean session free d h).1] at hfault
      cases hfault
    · rw [hlast.eq]
    · exact absurd hn (Nat.succ_ne_zero n).symm
  | succ rounds ih =>
    obtain ⟨hsettled, hexpanded⟩ := hclean session free d h
    rcases unroll_cases audit r (rounds + 1) free session d hrounds with
      ⟨fault, hfault, _⟩ | hlast | ⟨n, v, hn, hfault, hkept, hv, x, hx, hnext⟩
    · rw [hsettled] at hfault
      cases hfault
    · rw [hlast.eq]
    · obtain rfl : rounds = n := Nat.succ.inj hn
      have hclear : x.fault = none := hx ▸ hexpanded v hv
      rcases hnext with ⟨fault, hxfault, _⟩ | ⟨hxfault, heq⟩
      · rw [hclear] at hxfault
        cases hxfault
      · rw [heq]
        have hsize := Variables.size_erase_add_one v.2
        exact ih (h.next rfl hfault hkept hv hx hxfault) (by omega)

/-! ### One round at a time -/

/-- One round, given what comes after it. -/
def unrollRound (audit : Audit σ κ V) (r : Request σ κ V) (free : Variables)
    (session : Session σ κ V) (d : Diagram σ V)
    (after : Variables → Session σ κ V → Diagram σ V → Unrolled σ κ V) : Unrolled σ κ V :=
  let f := settleLayer audit r session d
  match f.fault with
  | some fault =>
    ⟨f.session, { d with pending := f.layer, lastExact := d.lastExactAfter f.reduced }, some fault⟩
  | none =>
    match f.kept, r.branching free (d.pending.toList.map (·.state)) with
    | _ :: _, some v =>
      let x := f.expansion r free d.layers.length v
      match x.fault with
      | some fault => ⟨x.session, d.expanded f x, some fault⟩
      | none => after (free.erase v) x.session (d.expanded f x)
    | _, _ => ⟨f.reported d.layers.length, d.completed f, none⟩

/-- **Unrolling goes round by round**, as long as enough of them are granted. -/
theorem unroll_eq_round (audit : Audit σ κ V) (r : Request σ κ V) {rounds : Nat}
    {free : Variables} (session : Session σ κ V) (d : Diagram σ V) (h : free.size ≤ rounds) :
    unroll audit r rounds free session d =
      unrollRound audit r free session d (unroll audit r (rounds - 1)) := by
  rw [unroll, unrollRound]
  generalize settleLayer audit r session d = f
  dsimp only
  cases f.fault with
  | some fault => rfl
  | none =>
    dsimp only
    unfold Fitted.expansion Fitted.reported
    cases r.branching free (d.pending.toList.map (·.state)) with
    | none =>
      cases rounds with
      | zero => cases f.kept <;> rfl
      | succ rounds => cases f.kept <;> rfl
    | some v =>
      have hsize := Variables.size_erase_add_one v.2
      obtain ⟨n, rfl⟩ : ∃ n, rounds = n + 1 := ⟨rounds - 1, by omega⟩
      cases f.kept <;> rfl

/-- A round depends on the branching rule only by the variable that it picks now. -/
theorem unrollRound_congr {audit : Audit σ κ V} {r : Request σ κ V} {b : Branching σ}
    {free : Variables} {session : Session σ κ V} {d : Diagram σ V}
    {after after' : Variables → Session σ κ V → Diagram σ V → Unrolled σ κ V}
    (hb : b free (d.pending.toList.map (·.state)) =
      r.branching free (d.pending.toList.map (·.state)))
    (hafter : ∀ v, r.branching free (d.pending.toList.map (·.state)) = some v → ∀ x,
      (settleLayer audit r session d).expansion r free d.layers.length v = x →
        after (free.erase v) x.session (d.expanded (settleLayer audit r session d) x) =
          after' (free.erase v) x.session (d.expanded (settleLayer audit r session d) x)) :
    unrollRound audit { r with branching := b } free session d after =
      unrollRound audit r free session d after' := by
  have hsettle : settleLayer audit { r with branching := b } session d =
      settleLayer audit r session d := rfl
  have hexpand : ∀ (f : Fitted σ κ V) index var,
      f.expansion { r with branching := b } free index var = f.expansion r free index var :=
    fun _ _ _ => rfl
  unfold unrollRound
  simp only [hb, hsettle, hexpand]
  generalize settleLayer audit r session d = f at hafter
  cases f.fault with
  | some fault => rfl
  | none =>
    cases hv : r.branching free (d.pending.toList.map (·.state)) with
    | none => cases f.kept <;> rfl
    | some v =>
      have hnext := hafter v hv _ rfl
      cases f.kept with
      | nil => rfl
      | cons first rest =>
        dsimp only
        split
        · rfl
        · exact hnext

/-- **Unrolling comes to its end by itself**: it takes no more rounds than there are
free variables, however many are granted. -/
theorem unroll_eq (audit : Audit σ κ V) (r : Request σ κ V) {rounds rounds' : Nat}
    {free : Variables} (session : Session σ κ V) (d : Diagram σ V) (h : free.size ≤ rounds)
    (h' : free.size ≤ rounds') :
    unroll audit r rounds free session d = unroll audit r rounds' free session d := by
  induction rounds generalizing rounds' free session d with
  | zero =>
    rw [unroll_eq_round _ _ _ _ h, unroll_eq_round _ _ _ _ h']
    refine unrollRound_congr (r := r) (b := r.branching) rfl fun v hv => ?_
    exact absurd (Branching.size_pos_of_some hv) (Nat.not_lt.2 h)
  | succ rounds ih =>
    rw [unroll_eq_round _ _ _ _ h, unroll_eq_round _ _ _ _ h']
    refine unrollRound_congr (r := r) (b := r.branching) rfl fun v _ x _ => ?_
    have hsize := Variables.size_erase_add_one v.2
    exact ih _ _ (by omega) (by omega)

end DiagramSearch
