/-
# What a dominance table keeps

A dominance table is asked about one pair of a state and a value after the other.
It drops what a newcomer makes useless and turns away a newcomer that comes too
late, so at no time it knows all the pairs it has seen.  It answers as if it did:
where the relation is an order, what was dropped is under what is kept.

* `Dominance.Keeps`: the invariant of one group, among the pairs seen so far: the
  entries are some of them, no two of them are comparable, and each pair seen is
  under an entry;
* `Keeps.stay` and `Keeps.take`: one check preserves it, whether the pair is turned
  away or kept;
* `Keeps.mem_iff`: the entries are the maximal pairs;
* `Session.calls_keep_maximal`: **after any calls the table holds the maximal pairs
  among those offered since it was emptied, a check tells exactly the pairs that one
  of those is strictly above, and the order of the offers does not matter.**
-/

import DiagramSearch.Proofs.Dominating

namespace DiagramSearch

variable {σ κ V : Type}

/-! ### Orders -/

/-- A range of values that `≤` orders and on which `==` is equality: none of them is
undefined, and there is a single zero. -/
structure Value.IsOrder [Value V] (range : V → Prop) : Prop where
  refl : ∀ a, range a → a ≤ a
  trans : ∀ a b c, range a → range b → range c → a ≤ b → b ≤ c → a ≤ c
  antisymm : ∀ a b, range a → range b → a ≤ b → b ≤ a → a = b
  beq_iff : ∀ a b, range a → range b → ((a == b) = true ↔ a = b)

/-- All values of exact arithmetic are ordered. -/
theorem Extended.isOrder : Value.IsOrder (V := Extended) fun _ => True where
  refl a _ := le_refl a
  trans _ _ _ _ _ _ := le_trans
  antisymm _ _ _ _ := le_antisymm
  beq_iff _ _ _ _ := beq_iff_eq

namespace Dominance

/-- A relation that orders the states with the same key. -/
structure IsOrder (rel : Dominance σ κ) : Prop where
  refl : ∀ a key, rel.key a = some key → rel.le a a = true
  trans : ∀ a b c key, rel.key a = some key → rel.key b = some key → rel.key c = some key →
    rel.le a b = true → rel.le b c = true → rel.le a c = true
  antisymm : ∀ a b key, rel.key a = some key → rel.key b = some key →
    rel.le a b = true → rel.le b a = true → a = b

/-- The first pair is no better than the second, in its state and in its value. -/
def Entry.Under [Value V] (rel : Dominance σ κ) (a b : Entry σ V) : Prop :=
  a.value ≤ b.value ∧ rel.le a.state b.state = true

/-- The second pair makes the first one useless. -/
def Entry.Beneath [Value V] (rel : Dominance σ κ) (a b : Entry σ V) : Prop :=
  a.Under rel b ∧ a ≠ b

/-- The pairs of one group: the values are in range, the states under the key. -/
def Entry.Fits (rel : Dominance σ κ) (range : V → Prop) (key : κ) (e : Entry σ V) : Prop :=
  rel.key e.state = some key ∧ range e.value

section Order

variable [Value V] {rel : Dominance σ κ} {range : V → Prop} {key : κ} {a b c : Entry σ V}

theorem Entry.Under.refl (hrel : rel.IsOrder) (hrange : Value.IsOrder range)
    (ha : a.Fits rel range key) : a.Under rel a :=
  ⟨hrange.refl _ ha.2, hrel.refl _ key ha.1⟩

theorem Entry.Under.trans (hrel : rel.IsOrder) (hrange : Value.IsOrder range)
    (ha : a.Fits rel range key) (hb : b.Fits rel range key) (hc : c.Fits rel range key)
    (hab : a.Under rel b) (hbc : b.Under rel c) : a.Under rel c :=
  ⟨hrange.trans _ _ _ ha.2 hb.2 hc.2 hab.1 hbc.1,
    hrel.trans _ _ _ key ha.1 hb.1 hc.1 hab.2 hbc.2⟩

theorem Entry.Under.antisymm (hrel : rel.IsOrder) (hrange : Value.IsOrder range)
    (ha : a.Fits rel range key) (hb : b.Fits rel range key)
    (hab : a.Under rel b) (hba : b.Under rel a) : a = b := by
  obtain ⟨s, v⟩ := a
  obtain ⟨s', v'⟩ := b
  obtain rfl : s = s' := hrel.antisymm _ _ key ha.1 hb.1 hab.2 hba.2
  obtain rfl : v = v' := hrange.antisymm _ _ ha.2 hb.2 hab.1 hba.1
  rfl

theorem Entry.yields_iff : a.yields rel b.state b.value = true ↔ a.Under rel b := by
  simp [Entry.yields, Entry.Under]

variable [BEq σ] [LawfulBEq σ]

/-- An entry covers the pairs that it makes useless. -/
theorem Entry.covers_iff (hrange : Value.IsOrder range) (ha : a.Fits rel range key)
    (hb : b.Fits rel range key) :
    a.covers rel b.state b.value = true ↔ b.Beneath rel a := by
  obtain ⟨s, v⟩ := a
  obtain ⟨s', v'⟩ := b
  have hbeq := hrange.beq_iff v' v hb.2 ha.2
  simp only [Entry.covers, Entry.Beneath, Entry.Under, Bool.and_eq_true, decide_eq_true_eq,
    Bool.not_eq_true', ne_eq, Entry.mk.injEq, ← Bool.not_eq_true, hbeq, beq_iff_eq, and_congr_right_iff]
  intro _
  exact not_congr and_comm

end Order

/-! ### One group -/

/-- What the entries of a group are to the pairs it was asked about. -/
structure Keeps [Value V] (rel : Dominance σ κ) (seen : Entry σ V → Prop)
    (kept : List (Entry σ V)) : Prop where
  nodup : kept.Nodup
  sound : ∀ e ∈ kept, seen e
  apart : ∀ e ∈ kept, ∀ e' ∈ kept, e.Under rel e' → e = e'
  above : ∀ e, seen e → ∃ e' ∈ kept, e.Under rel e'

/-- A pair that was seen, and that no other one seen is above. -/
def Maximal [Value V] (rel : Dominance σ κ) (seen : Entry σ V → Prop) (e : Entry σ V) : Prop :=
  seen e ∧ ∀ e', seen e' → e.Under rel e' → e' = e

section Keeps

variable [Value V] {rel : Dominance σ κ} {range : V → Prop} {key : κ}
  {seen : Entry σ V → Prop} {kept : List (Entry σ V)} {e : Entry σ V}

theorem Keeps.nil (hnone : ∀ e, ¬ seen e) : Keeps rel seen [] where
  nodup := .nil
  sound _ he := absurd he List.not_mem_nil
  apart _ he := absurd he List.not_mem_nil
  above e he := absurd he (hnone e)

/-- **The entries are the maximal pairs.** -/
theorem Keeps.mem_iff (hrel : rel.IsOrder) (hrange : Value.IsOrder range)
    (hfits : ∀ e, seen e → e.Fits rel range key) (h : Keeps rel seen kept) :
    e ∈ kept ↔ Maximal rel seen e := by
  constructor
  · intro he
    refine ⟨h.sound e he, fun e' hseen hunder => ?_⟩
    obtain ⟨top, htop, habove⟩ := h.above e' hseen
    have hle := hunder.trans hrel hrange (hfits e (h.sound e he)) (hfits e' hseen)
      (hfits top (h.sound top htop)) habove
    obtain rfl : e = top := h.apart e he top htop hle
    exact habove.antisymm hrel hrange (hfits e' hseen) (hfits e (h.sound e he)) hunder
  · rintro ⟨hseen, hmax⟩
    obtain ⟨top, htop, habove⟩ := h.above e hseen
    exact hmax top (h.sound top htop) habove ▸ htop

/-- Two groups that were asked about the same pairs hold the same entries. -/
theorem Keeps.perm (hrel : rel.IsOrder) (hrange : Value.IsOrder range)
    (hfits : ∀ e, seen e → e.Fits rel range key) {kept' : List (Entry σ V)}
    (h : Keeps rel seen kept) (h' : Keeps rel seen kept') : kept.Perm kept' :=
  (List.perm_ext_iff_of_nodup h.nodup h'.nodup).2 fun _ =>
    (h.mem_iff hrel hrange hfits).trans (h'.mem_iff hrel hrange hfits).symm

/-- A pair that an entry is above adds nothing. -/
theorem Keeps.stay (h : Keeps rel seen kept) {top : Entry σ V} (htop : top ∈ kept)
    (hunder : e.Under rel top) : Keeps rel (fun x => seen x ∨ x = e) kept where
  nodup := h.nodup
  sound x hx := .inl (h.sound x hx)
  apart := h.apart
  above x hx := by
    rcases hx with hx | rfl
    · exact h.above x hx
    · exact ⟨top, htop, hunder⟩

variable [BEq σ] [LawfulBEq σ]

/-- A pair that no entry covers takes the place of the entries that are under it. -/
theorem Keeps.take (hrel : rel.IsOrder) (hrange : Value.IsOrder range)
    (hfits : ∀ e, seen e → e.Fits rel range key) (he : e.Fits rel range key)
    (h : Keeps rel seen kept) (hfree : ∀ k ∈ kept, k.covers rel e.state e.value ≠ true) :
    Keeps rel (fun x => seen x ∨ x = e)
      (kept.filter (fun k => !k.yields rel e.state e.value) ++ [e]) := by
  have hself : e.Under rel e := .refl hrel hrange he
  have hrest : ∀ k, k ∈ kept.filter (fun k => !k.yields rel e.state e.value) ↔
      k ∈ kept ∧ ¬ k.Under rel e := by
    intro k
    rw [List.mem_filter, ← Entry.yields_iff, Bool.not_eq_true', Bool.not_eq_true]
  -- an entry above the newcomer would cover it, unless it is the newcomer itself
  have hbelow : ∀ k ∈ kept, e.Under rel k → k = e := fun k hk hle =>
    by_contra fun hne => hfree k hk
      ((Entry.covers_iff hrange (hfits k (h.sound k hk)) he).2 ⟨hle, fun heq => hne heq.symm⟩)
  refine ⟨?_, ?_, ?_, ?_⟩
  · refine List.nodup_append.2 ⟨h.nodup.filter _, List.nodup_singleton _, ?_⟩
    rintro k hk _ hmem rfl
    exact ((hrest k).1 hk).2 (List.mem_singleton.1 hmem ▸ hself)
  · intro k hk
    rcases List.mem_append.1 hk with hk | hk
    · exact .inl (h.sound k ((hrest k).1 hk).1)
    · exact .inr (List.mem_singleton.1 hk)
  · intro k hk k' hk' hle
    rcases List.mem_append.1 hk with hk | hk <;> rcases List.mem_append.1 hk' with hk' | hk'
    · exact h.apart k ((hrest k).1 hk).1 k' ((hrest k').1 hk').1 hle
    · exact absurd (List.mem_singleton.1 hk' ▸ hle) ((hrest k).1 hk).2
    · obtain rfl := List.mem_singleton.1 hk
      exact (hbelow k' ((hrest k').1 hk').1 hle).symm
    · rw [List.mem_singleton.1 hk, List.mem_singleton.1 hk']
  · intro x hx
    rcases hx with hx | rfl
    · obtain ⟨top, htop, habove⟩ := h.above x hx
      by_cases hle : top.Under rel e
      · exact ⟨e, List.mem_append_right _ (List.mem_singleton_self e),
          habove.trans hrel hrange (hfits x hx) (hfits top (h.sound top htop)) he hle⟩
      · exact ⟨top, List.mem_append_left _ ((hrest top).2 ⟨htop, hle⟩), habove⟩
    · exact ⟨x, List.mem_append_right _ (List.mem_singleton_self x), hself⟩

/-- Some entry covers a pair as soon as some pair seen makes it useless. -/
theorem Keeps.covered_iff (hrel : rel.IsOrder) (hrange : Value.IsOrder range)
    (hfits : ∀ e, seen e → e.Fits rel range key) (he : e.Fits rel range key)
    (h : Keeps rel seen kept) :
    (∃ k ∈ kept, k.covers rel e.state e.value = true) ↔
      ∃ x, seen x ∧ e.Beneath rel x := by
  constructor
  · rintro ⟨k, hk, hcovers⟩
    exact ⟨k, h.sound k hk, (Entry.covers_iff hrange (hfits k (h.sound k hk)) he).1 hcovers⟩
  · rintro ⟨x, hx, hle, hne⟩
    obtain ⟨top, htop, habove⟩ := h.above x hx
    have hfit := hfits top (h.sound top htop)
    refine ⟨top, htop, (Entry.covers_iff hrange hfit he).2
      ⟨hle.trans hrel hrange he (hfits x hx) hfit habove, ?_⟩⟩
    rintro rfl
    exact hne (hle.antisymm hrel hrange he (hfits x hx) habove)

end Keeps

/-! ### One check -/

section Check

variable [BEq σ] [BEq κ] [LawfulBEq κ] [Value V] {rel : Dominance σ κ} {t : Table σ κ V}
  {state : σ} {depth : Nat} {value : V} {key : κ}

omit [LawfulBEq κ] in
/-- A pair that an entry covers is turned away with the value of such an entry. -/
theorem Table.check_of_covered (hkey : rel.key state = some key)
    (hcovered : ∃ k ∈ t.entries depth key, k.covers rel state value = true) :
    (t.check rel state depth value).2 = t ∧ ∃ k ∈ t.entries depth key,
      k.covers rel state value = true ∧ (t.check rel state depth value).1 = some k.value := by
  unfold Table.check
  rw [hkey]
  dsimp only
  split
  · rename_i k hk
    exact ⟨rfl, k, List.mem_of_find?_eq_some hk, by simpa using List.find?_some hk, rfl⟩
  · rename_i hnone
    obtain ⟨k, hk, hcovers⟩ := hcovered
    exact absurd hcovers (List.find?_eq_none.1 hnone k hk)

/-- A pair that no entry covers is kept, without the entries that yield to it. -/
theorem Table.check_of_free (hkey : rel.key state = some key)
    (hfree : ∀ k ∈ t.entries depth key, k.covers rel state value ≠ true) :
    (t.check rel state depth value).1 = none ∧
      (t.check rel state depth value).2.entries depth key =
        (t.entries depth key).filter (fun k => !k.yields rel state value) ++ [⟨state, value⟩] := by
  unfold Table.check
  rw [hkey]
  dsimp only
  rw [List.find?_eq_none.2 hfree]
  refine ⟨rfl, ?_⟩
  rw [Table.entries, Register.get?_put, beq_self_eq_true]
  rfl

end Check
end Dominance

/-! ### A sequence of calls -/

open Dominance

/-- A state and the value it was reached with, at a depth. -/
structure Offer (σ V : Type) where
  state : σ
  depth : Nat
  value : V

/-- A call on the dominance table. -/
inductive Call (σ V : Type) where
  | check (o : Offer σ V)
  | clear

/-- The offers made since the table was last emptied. -/
def Call.offers (calls : List (Call σ V)) : List (Offer σ V) :=
  calls.foldl (fun os c => match c with
    | .check o => os ++ [o]
    | .clear => []) []

/-- The pairs offered at a depth and under a key. -/
def Offer.Pairs (rel : Dominance σ κ) (os : List (Offer σ V)) (depth : Nat) (key : κ)
    (e : Entry σ V) : Prop :=
  ⟨e.state, depth, e.value⟩ ∈ os ∧ rel.key e.state = some key

section Calls

variable [BEq σ] [BEq κ] [Value V]

/-- The session after some calls. -/
def Session.calls (s : Session σ κ V) (rel : Dominance σ κ) (calls : List (Call σ V)) :
    Session σ κ V :=
  calls.foldl (fun s c => match c with
    | .check o => (s.check (some rel) o.state o.depth o.value).2
    | .clear => s.clearTable) s

variable [LawfulBEq σ] [LawfulBEq κ] {rel : Dominance σ κ} {range : V → Prop}

/-- One check of a pair in range preserves the invariant of every group. -/
theorem Dominance.Table.check_keeps (hrel : rel.IsOrder) (hrange : Value.IsOrder range)
    {t : Table σ κ V} {os : List (Offer σ V)} (hos : ∀ o ∈ os, range o.value)
    {o : Offer σ V} (ho : range o.value)
    (h : ∀ depth key, Keeps rel (Offer.Pairs rel os depth key) (t.entries depth key))
    (depth : Nat) (key : κ) :
    Keeps rel (Offer.Pairs rel (os ++ [o]) depth key)
      ((t.check rel o.state o.depth o.value).2.entries depth key) := by
  by_cases hown : depth = o.depth ∧ rel.key o.state = some key
  · obtain ⟨rfl, hkey⟩ := hown
    have hpairs : Offer.Pairs rel (os ++ [o]) o.depth key =
        fun x => Offer.Pairs rel os o.depth key x ∨ x = ⟨o.state, o.value⟩ := by
      funext ⟨s, v⟩
      obtain ⟨state, depth, value⟩ := o
      simp only [Offer.Pairs, List.mem_append, List.mem_singleton, Offer.mk.injEq,
        Entry.mk.injEq, true_and, eq_iff_iff]
      constructor
      · rintro ⟨hmem | ⟨rfl, rfl⟩, hs⟩
        · exact .inl ⟨hmem, hs⟩
        · exact .inr ⟨rfl, rfl⟩
      · rintro (⟨hmem, hs⟩ | ⟨rfl, rfl⟩)
        · exact ⟨.inl hmem, hs⟩
        · exact ⟨.inr ⟨rfl, rfl⟩, hkey⟩
    have hfits : ∀ e, Offer.Pairs rel os o.depth key e → e.Fits rel range key :=
      fun e he => ⟨he.2, hos _ he.1⟩
    have hfit : (⟨o.state, o.value⟩ : Entry σ V).Fits rel range key := ⟨hkey, ho⟩
    rw [hpairs]
    by_cases hcovered : ∃ k ∈ t.entries o.depth key, k.covers rel o.state o.value = true
    · rw [(Table.check_of_covered hkey hcovered).1]
      obtain ⟨k, hk, hcovers⟩ := hcovered
      exact (h o.depth key).stay hk
        ((Entry.covers_iff hrange (hfits k ((h o.depth key).sound k hk)) hfit).1 hcovers).1
    · have hfree : ∀ k ∈ t.entries o.depth key, k.covers rel o.state o.value ≠ true :=
        fun k hk hcovers => hcovered ⟨k, hk, hcovers⟩
      rw [(Table.check_of_free hkey hfree).2]
      exact (h o.depth key).take hrel hrange hfits hfit hfree
  · have hpairs : Offer.Pairs rel (os ++ [o]) depth key = Offer.Pairs rel os depth key := by
      funext ⟨s, v⟩
      obtain ⟨state, d, value⟩ := o
      simp only [Offer.Pairs, List.mem_append, List.mem_singleton, Offer.mk.injEq, eq_iff_iff]
      constructor
      · rintro ⟨hmem | ⟨rfl, rfl, rfl⟩, hs⟩
        · exact ⟨hmem, hs⟩
        · exact absurd ⟨rfl, hs⟩ hown
      · rintro ⟨hmem, hs⟩
        exact ⟨.inl hmem, hs⟩
    rw [hpairs, Table.entries_check_of_ne hown]
    exact h depth key

/-- The values that are offered are in range. -/
def Call.InRange (range : V → Prop) (calls : List (Call σ V)) : Prop :=
  ∀ o, Call.check o ∈ calls → range o.value

/-- **After any calls every group keeps what it should of the pairs offered to it.** -/
theorem Session.calls_keeps (hrel : rel.IsOrder) (hrange : Value.IsOrder range)
    (calls : List (Call σ V)) (hvalues : Call.InRange range calls) :
    (∀ o ∈ Call.offers calls, range o.value) ∧ ∀ depth key,
      Keeps rel (Offer.Pairs rel (Call.offers calls) depth key)
        (((Session.fresh : Session σ κ V).calls rel calls).table.entries depth key) := by
  induction calls using List.reverseRecOn with
  | nil => exact ⟨fun o ho => absurd ho List.not_mem_nil,
      fun _ _ => .nil fun _ he => absurd he.1 List.not_mem_nil⟩
  | append_singleton calls c ih =>
    obtain ⟨hos, hkeeps⟩ := ih fun o ho => hvalues o (List.mem_append_left _ ho)
    rw [Call.offers, Session.calls, List.foldl_append, List.foldl_append]
    cases c with
    | clear => exact ⟨fun o ho => absurd ho List.not_mem_nil,
        fun _ _ => .nil fun _ he => absurd he.1 List.not_mem_nil⟩
    | check o =>
      have ho : range o.value := hvalues o (List.mem_append_right _ (List.mem_singleton_self _))
      refine ⟨fun o' ho' => ?_, Table.check_keeps hrel hrange hos ho hkeeps⟩
      rcases List.mem_append.1 ho' with ho' | ho'
      · exact hos o' ho'
      · exact List.mem_singleton.1 ho' ▸ ho

/-- **After any calls the table holds, for each depth and key, the maximal pairs among
those offered since it was emptied, each of them once.  A check tells a pair that one
of those makes useless, with the value of an entry that does, and no other pair.  What
the table holds depends on what was offered, not on the order.** -/
theorem Session.calls_keep_maximal (hrel : rel.IsOrder) (hrange : Value.IsOrder range)
    (calls : List (Call σ V)) (hvalues : Call.InRange range calls) :
    let s : Session σ κ V := Session.fresh.calls rel calls
    (∀ depth key, (s.table.entries depth key).Nodup ∧ ∀ e,
      e ∈ s.table.entries depth key ↔
        Maximal rel (Offer.Pairs rel (Call.offers calls) depth key) e) ∧
    (∀ state depth value, range value →
      ((s.check (some rel) state depth value).1.isSome = true ↔
        ∃ key e, rel.key state = some key ∧
          Offer.Pairs rel (Call.offers calls) depth key e ∧ Entry.Beneath rel ⟨state, value⟩ e) ∧
      ∀ v, (s.check (some rel) state depth value).1 = some v →
        ∃ key, rel.key state = some key ∧ ∃ e ∈ s.table.entries depth key,
          Entry.Beneath rel ⟨state, value⟩ e ∧ e.value = v) ∧
    ∀ calls' : List (Call σ V), Call.InRange range calls' →
      (∀ o, o ∈ Call.offers calls' ↔ o ∈ Call.offers calls) → ∀ depth key,
        (((Session.fresh : Session σ κ V).calls rel calls').table.entries depth key).Perm
          (s.table.entries depth key) := by
  intro s
  obtain ⟨hos, hkeeps⟩ := Session.calls_keeps hrel hrange calls hvalues
  have hfits : ∀ depth key e, Offer.Pairs rel (Call.offers calls) depth key e →
      e.Fits rel range key := fun _ _ _ he => ⟨he.2, hos _ he.1⟩
  refine ⟨fun depth key => ⟨(hkeeps depth key).nodup, fun e =>
    (hkeeps depth key).mem_iff hrel hrange (hfits depth key)⟩, ?_, ?_⟩
  · intro state depth value hvalue
    have htold : ∀ v, (s.check (some rel) state depth value).1 = some v →
        ∃ key, rel.key state = some key ∧ ∃ e ∈ s.table.entries depth key,
          Entry.Beneath rel ⟨state, value⟩ e ∧ e.value = v := by
      intro v hv
      obtain ⟨key, hkey, e, he, hcovers, rfl⟩ := Table.check_eq_some hv
      have hfit := hfits depth key e ((hkeeps depth key).sound e he)
      exact ⟨key, hkey, e, he, (Entry.covers_iff hrange hfit ⟨hkey, hvalue⟩).1 hcovers, rfl⟩
    refine ⟨⟨fun hsome => ?_, ?_⟩, htold⟩
    · obtain ⟨v, hv⟩ := Option.isSome_iff_exists.1 hsome
      obtain ⟨key, hkey, e, he, hbeneath, _⟩ := htold v hv
      exact ⟨key, e, hkey, (hkeeps depth key).sound e he, hbeneath⟩
    · rintro ⟨key, e, hkey, he, hbeneath⟩
      have hcovered := ((hkeeps depth key).covered_iff hrel hrange (hfits depth key)
        ⟨hkey, hvalue⟩).2 ⟨e, he, hbeneath⟩
      obtain ⟨_, k, _, _, hverdict⟩ := Table.check_of_covered hkey hcovered
      exact Option.isSome_iff_exists.2 ⟨k.value, hverdict⟩
  · intro calls' hvalues' hsame depth key
    have hpairs : Offer.Pairs rel (Call.offers calls') depth key =
        Offer.Pairs rel (Call.offers calls) depth key := by
      funext e
      rw [Offer.Pairs, hsame]
      rfl
    have hkeeps' := (Session.calls_keeps hrel hrange calls' hvalues').2 depth key
    rw [hpairs] at hkeeps'
    exact hkeeps'.perm hrel hrange (hfits depth key) (hkeeps depth key)

end Calls

/-- Numbers under one key, in their order. -/
def upwards : Dominance Nat Unit where
  key _ := some ()
  le a b := decide (a ≤ b)

theorem upwards_isOrder : upwards.IsOrder where
  refl a _ _ := decide_eq_true (le_refl a)
  trans _ _ _ _ _ _ _ hab hbc :=
    decide_eq_true ((of_decide_eq_true hab).trans (of_decide_eq_true hbc))
  antisymm _ _ _ _ _ hab hba := (of_decide_eq_true hab).antisymm (of_decide_eq_true hba)

/-- Offers made before and after the table is emptied. -/
def offerings : List (Call Nat Extended) :=
  [.check ⟨9, 0, .finite 9⟩, .clear, .check ⟨3, 0, .finite 1⟩, .check ⟨1, 0, .finite 2⟩,
    .check ⟨5, 0, .finite 1⟩]

theorem offerings_keep_maximal :
    upwards.IsOrder ∧ Value.IsOrder (V := Extended) (fun _ => True) ∧
      Call.InRange (fun _ => True) offerings ∧
      Maximal upwards (Offer.Pairs upwards (Call.offers offerings) 0 ()) ⟨5, .finite 1⟩ ∧
      ¬ Maximal upwards (Offer.Pairs upwards (Call.offers offerings) 0 ()) ⟨3, .finite 1⟩ := by
  have hkeep := Session.calls_keep_maximal upwards_isOrder Extended.isOrder offerings
    fun _ _ => trivial
  have hentries : ((Session.fresh : Session Nat Unit Extended).calls upwards offerings).table.entries
      0 () = [⟨1, .finite 2⟩, ⟨5, .finite 1⟩] := by rfl
  have hmem := (hkeep.1 0 ()).2
  rw [hentries] at hmem
  exact ⟨upwards_isOrder, Extended.isOrder, fun _ _ => trivial,
    (hmem _).1 (by simp), fun hmax => by simpa using (hmem _).2 hmax⟩

end DiagramSearch
