import IntentGrammar.Search.Outcome
import Mathlib.Algebra.Order.Group.Nat
import Mathlib.Algebra.Order.Monoid.Prod
import Mathlib.Data.Prod.Lex

/-!
# Offers and the ends they leave

The ends of a search are built by offering outcomes one after the other.  `Ends.offerAll` makes a
list of offers; what it leaves is the cheapest offer for every position
(`Ends.mem_of_mem_offerAll`, `Ends.exists_mem_offerAll`), and offers for positions that are of no
interest may be left out beforehand (`Ends.filter_offerAll`).  `Ends.settleAll` lets the first
offer stand instead (`Ends.get?_settleAll`).

`Ends.Lists` is the relation between ends and what they stand for: every entry is a possible way
to its position, and no possible way is cheaper than the entry for its position.
-/

namespace IntentGrammar

namespace Outcome

/-- The cost of an outcome: skipped stopwords first, then wild tokens. -/
def cost (o : Outcome) : Nat ×ₗ Nat := toLex (o.skipped, o.wild)

theorem cheaper_iff {a b : Outcome} : a.cheaper b = true ↔ a.cost < b.cost := by
  simp [cheaper, cost, Prod.Lex.toLex_lt_toLex]

theorem cost_andThen (a b : Outcome) : (a.andThen b).cost = a.cost + b.cost := rfl

theorem cost_andThen_le {a a' b b' : Outcome} (ha : a.cost ≤ a'.cost) (hb : b.cost ≤ b'.cost) :
    (a.andThen b).cost ≤ (a'.andThen b').cost := by
  rw [cost_andThen, cost_andThen]
  exact add_le_add ha hb

end Outcome

namespace Ends

/-! ### Look-up and membership -/

theorem mem_of_get? {es : Ends} {p : Nat} {o : Outcome} (h : es.get? p = some o) :
    (p, o) ∈ es := by
  induction es with
  | nil => cases h
  | cons e es ih =>
    simp only [get?] at h
    split at h
    · next hp => cases h; rw [← hp]; exact List.mem_cons_self
    · exact List.mem_cons_of_mem _ (ih h)

theorem get?_of_mem {es : Ends} (hes : es.Ascending) {p : Nat} {o : Outcome} (h : (p, o) ∈ es) :
    es.get? p = some o := by
  induction es with
  | nil => cases h
  | cons e es ih =>
    obtain ⟨he, hes⟩ := List.pairwise_cons.1 hes
    simp only [get?]
    rcases List.mem_cons.1 h with rfl | h
    · simp
    · have : e.1 < p := he _ h
      rw [if_neg (by omega)]
      exact ih hes h

theorem mem_iff_get? {es : Ends} (hes : es.Ascending) {p : Nat} {o : Outcome} :
    (p, o) ∈ es ↔ es.get? p = some o :=
  ⟨get?_of_mem hes, mem_of_get?⟩

theorem eq_of_mem {es : Ends} (hes : es.Ascending) {p : Nat} {o o' : Outcome} (h : (p, o) ∈ es)
    (h' : (p, o') ∈ es) : o = o' :=
  Option.some.inj ((get?_of_mem hes h).symm.trans (get?_of_mem hes h'))

theorem ascending_nil : Ascending [] := List.Pairwise.nil

theorem ascending_singleton (e : Nat × Outcome) : Ascending [e] := List.pairwise_singleton _ _

theorem Ascending.filter {es : Ends} (h : es.Ascending) (keep : Nat × Outcome → Bool) :
    Ascending (List.filter keep es) :=
  List.Pairwise.filter keep h

theorem ascending_offer {es : Ends} (h : es.Ascending) (p : Nat) (o : Outcome) :
    (es.offer p o).Ascending :=
  ascending_place _ h p o

theorem ascending_settle {es : Ends} (h : es.Ascending) (p : Nat) (o : Outcome) :
    (es.settle p o).Ascending :=
  ascending_place _ h p o

/-! ### Offers -/

/-- Make a list of offers, one after the other. -/
def offerAll (offers : List (Nat × Outcome)) (es : Ends) : Ends :=
  offers.foldl (fun es x => es.offer x.1 x.2) es

@[simp] theorem offerAll_nil (es : Ends) : offerAll [] es = es := rfl

theorem offerAll_cons (x : Nat × Outcome) (xs : List (Nat × Outcome)) (es : Ends) :
    offerAll (x :: xs) es = offerAll xs (es.offer x.1 x.2) := rfl

theorem offerAll_append (xs ys : List (Nat × Outcome)) (es : Ends) :
    offerAll (xs ++ ys) es = offerAll ys (offerAll xs es) :=
  List.foldl_append ..

theorem get?_offer {es : Ends} (h : es.Ascending) (p q : Nat) (o : Outcome) :
    (es.offer p o).get? q =
      if q = p then
        some (match es.get? p with
          | none => o
          | some old => if o.cheaper old then o else old)
      else es.get? q :=
  get?_place _ h p q o

theorem ascending_offerAll {es : Ends} (h : es.Ascending) (xs : List (Nat × Outcome)) :
    (offerAll xs es).Ascending := by
  induction xs generalizing es with
  | nil => exact h
  | cons x xs ih => exact ih (ascending_offer h _ _)

theorem mem_offer {es : Ends} (h : es.Ascending) {p : Nat} {o : Outcome} {e : Nat × Outcome}
    (he : e ∈ es.offer p o) : e = (p, o) ∨ e ∈ es := by
  obtain ⟨q, a⟩ := e
  have hget := get?_of_mem (ascending_offer h _ _) he
  rw [get?_offer h] at hget
  split at hget
  · next hq =>
    subst hq
    cases hold : es.get? q with
    | none => rw [hold] at hget; cases hget; exact .inl rfl
    | some old =>
      rw [hold] at hget
      simp only [Option.some.injEq] at hget
      split at hget
      · subst hget; exact .inl rfl
      · subst hget; exact .inr (mem_of_get? hold)
  · exact .inr (mem_of_get? hget)

/-- After an offer, the position holds something that costs no more. -/
theorem exists_mem_offer_self {es : Ends} (h : es.Ascending) (p : Nat) (o : Outcome) :
    ∃ o', (p, o') ∈ es.offer p o ∧ o'.cost ≤ o.cost := by
  have hget := get?_offer h p p o
  rw [if_pos rfl] at hget
  cases hold : es.get? p with
  | none => rw [hold] at hget; exact ⟨o, mem_of_get? hget, le_rfl⟩
  | some old =>
    rw [hold] at hget
    refine ⟨_, mem_of_get? hget, ?_⟩
    dsimp only
    split
    · exact le_rfl
    · next hc => exact not_lt.1 fun hlt => hc (Outcome.cheaper_iff.2 hlt)

/-- An offer takes no position away and makes none dearer. -/
theorem exists_mem_offer {es : Ends} (h : es.Ascending) (p : Nat) (o : Outcome)
    {e : Nat × Outcome} (he : e ∈ es) : ∃ o', (e.1, o') ∈ es.offer p o ∧ o'.cost ≤ e.2.cost := by
  obtain ⟨q, a⟩ := e
  have hold := get?_of_mem h he
  have hget := get?_offer h p q o
  by_cases hq : q = p
  · subst hq
    rw [if_pos rfl, hold] at hget
    refine ⟨_, mem_of_get? hget, ?_⟩
    dsimp only
    split
    · next hc => exact (Outcome.cheaper_iff.1 hc).le
    · exact le_rfl
  · rw [if_neg hq, hold] at hget
    exact ⟨a, mem_of_get? hget, le_rfl⟩

theorem mem_of_mem_offerAll {xs : List (Nat × Outcome)} {es : Ends} (h : es.Ascending)
    {e : Nat × Outcome} (he : e ∈ offerAll xs es) : e ∈ xs ∨ e ∈ es := by
  induction xs generalizing es with
  | nil => exact .inr he
  | cons x xs ih =>
    rcases ih (ascending_offer h _ _) he with hx | hx
    · exact .inl (List.mem_cons_of_mem _ hx)
    · rcases mem_offer h hx with rfl | hx
      · exact .inl List.mem_cons_self
      · exact .inr hx

theorem exists_mem_offerAll {xs : List (Nat × Outcome)} {es : Ends} (h : es.Ascending)
    {e : Nat × Outcome} (he : e ∈ xs ∨ e ∈ es) :
    ∃ o, (e.1, o) ∈ offerAll xs es ∧ o.cost ≤ e.2.cost := by
  induction xs generalizing es e with
  | nil => exact ⟨e.2, by simpa using he, le_rfl⟩
  | cons x xs ih =>
    -- what is offered first, or was there before, may be replaced only by something cheaper
    have later : ∀ {o : Outcome}, (e.1, o) ∈ es.offer x.1 x.2 → o.cost ≤ e.2.cost →
        ∃ o, (e.1, o) ∈ offerAll (x :: xs) es ∧ o.cost ≤ e.2.cost := by
      intro o ho hcost
      obtain ⟨o', ho', hcost'⟩ := ih (e := (e.1, o)) (ascending_offer h _ _) (.inr ho)
      exact ⟨o', ho', hcost'.trans hcost⟩
    rcases he with he | he
    · rcases List.mem_cons.1 he with rfl | he
      · obtain ⟨o, ho, hcost⟩ := exists_mem_offer_self h e.1 e.2
        exact later ho hcost
      · exact ih (ascending_offer h _ _) (.inl he)
    · obtain ⟨o, ho, hcost⟩ := exists_mem_offer h x.1 x.2 he
      exact later ho hcost

/-- Two lists of ends in ascending order are equal if they hold the same entries. -/
theorem ext {es fs : Ends} (hes : es.Ascending) (hfs : fs.Ascending)
    (h : ∀ p, es.get? p = fs.get? p) : es = fs := by
  -- sorted lists are equal as soon as they are permutations of each other
  have hperm : List.Perm es fs :=
    (List.perm_ext_iff_of_nodup (hes.imp fun hlt => by rintro rfl; exact lt_irrefl _ hlt)
      (hfs.imp fun hlt => by rintro rfl; exact lt_irrefl _ hlt)).2 fun e => by
        rw [mem_iff_get? hes, mem_iff_get? hfs, h]
  exact hperm.eq_of_pairwise (fun a b _ _ hab hba => absurd hab (lt_asymm hba)) hes hfs

theorem get?_filter {es : Ends} (hes : es.Ascending) (keep : Nat → Bool) (p : Nat) :
    Ends.get? (List.filter (fun e => keep e.1) es) p = if keep p then es.get? p else none := by
  apply Option.ext
  intro o
  rw [← mem_iff_get? (hes.filter _), List.mem_filter, mem_iff_get? hes]
  by_cases hp : keep p = true <;> simp [hp]

theorem filter_offer {es : Ends} (h : es.Ascending) (keep : Nat → Bool) (p : Nat) (o : Outcome) :
    List.filter (fun e => keep e.1) (es.offer p o) =
      if keep p then Ends.offer p o (List.filter (fun e => keep e.1) es)
      else List.filter (fun e => keep e.1) es := by
  have hk := h.filter fun e => keep e.1
  have ho := ascending_offer h p o
  -- both sides ascend, so that they need to agree at every position only
  by_cases hp : keep p = true
  · rw [if_pos hp]
    refine ext (ho.filter _) (ascending_offer hk p o) fun q => ?_
    rw [get?_filter ho, get?_offer h, get?_offer hk, get?_filter h, get?_filter h, if_pos hp]
    by_cases hq : q = p
    · simp [hq, hp]
    · simp [hq]
  · rw [if_neg hp]
    refine ext (ho.filter _) hk fun q => ?_
    rw [get?_filter ho, get?_filter h, get?_offer h]
    by_cases hq : q = p
    · simp [hq, hp]
    · simp [hq]

/-- Offers for positions of no interest may be left out. -/
theorem filter_offerAll {es : Ends} (h : es.Ascending) (keep : Nat → Bool)
    (xs : List (Nat × Outcome)) :
    List.filter (fun e => keep e.1) (offerAll xs es) =
      offerAll (xs.filter fun e => keep e.1) (List.filter (fun e => keep e.1) es) := by
  induction xs generalizing es with
  | nil => rfl
  | cons x xs ih =>
    rw [offerAll_cons, ih (ascending_offer h _ _), filter_offer h]
    by_cases hx : keep x.1 = true <;> simp [hx, offerAll_cons]

/-! ### Settling -/

/-- Settle all entries of `found`, one after the other. -/
def settleAll (found es : Ends) : Ends := found.foldl (fun es e => es.settle e.1 e.2) es

theorem get?_settle {es : Ends} (h : es.Ascending) (p q : Nat) (o : Outcome) :
    (es.settle p o).get? q = (es.get? q).or (if q = p then some o else none) := by
  unfold settle
  rw [get?_place _ h]
  by_cases hq : q = p
  · subst hq
    cases es.get? q <;> simp
  · simp [hq]

theorem ascending_settleAll {es : Ends} (h : es.Ascending) (found : Ends) :
    (settleAll found es).Ascending := by
  induction found generalizing es with
  | nil => exact h
  | cons e found ih => exact ih (ascending_settle h _ _)

/-- What was there first stays. -/
theorem get?_settleAll {es : Ends} (h : es.Ascending) (found : Ends) (p : Nat) :
    (settleAll found es).get? p = (es.get? p).or (found.get? p) := by
  induction found generalizing es with
  | nil => simp [settleAll, get?]
  | cons e found ih =>
    change (settleAll found (es.settle e.1 e.2)).get? p = _
    rw [ih (ascending_settle h _ _), get?_settle h]
    by_cases hp : e.1 = p
    · subst hp
      cases es.get? e.1 <;> simp [get?]
    · simp [get?, hp, Ne.symm hp]

/-! ### Parts behind a frontier -/

/-- Every way of placing a part behind a frontier, as a list of offers. -/
def offersBehind (part : Nat → Ends) (frontier : Ends) : List (Nat × Outcome) :=
  frontier.flatMap fun e => (part e.1).map fun e' => (e'.1, e.2.andThen e'.2)

/-- The ends of a part behind a frontier. -/
def behind (part : Nat → Ends) (frontier : Ends) : Ends := offerAll (offersBehind part frontier) []

theorem mem_offersBehind {part : Nat → Ends} {frontier : Ends} {q : Nat} {o : Outcome} :
    (q, o) ∈ offersBehind part frontier ↔
      ∃ p a b, (p, a) ∈ frontier ∧ (q, b) ∈ part p ∧ o = a.andThen b := by
  simp only [offersBehind, List.mem_flatMap, List.mem_map, Prod.mk.injEq]
  constructor
  · rintro ⟨⟨p, a⟩, hp, ⟨q', b⟩, hq, rfl, rfl⟩
    exact ⟨p, a, b, hp, hq, rfl⟩
  · rintro ⟨p, a, b, hp, hq, rfl⟩
    exact ⟨(p, a), hp, (q, b), hq, rfl, rfl⟩

theorem ascending_behind (part : Nat → Ends) (frontier : Ends) : (behind part frontier).Ascending :=
  ascending_offerAll ascending_nil _

theorem behind_nil (part : Nat → Ends) : behind part [] = [] := rfl

/-! ### What ends stand for -/

/-- The entries are ways allowed by `T`, and no way allowed by `T` is cheaper than the entry for
its position. -/
structure Lists (es : Ends) (T : Nat → Outcome → Prop) : Prop where
  sound : ∀ {p : Nat} {o : Outcome}, (p, o) ∈ es → T p o
  best : ∀ {p : Nat} {o : Outcome}, T p o → ∃ o', (p, o') ∈ es ∧ o'.cost ≤ o.cost

namespace Lists

variable {es : Ends} {T T' : Nat → Outcome → Prop}

theorem congr (h : es.Lists T) (hT : ∀ p o, T p o ↔ T' p o) : es.Lists T' :=
  ⟨fun ho => (hT _ _).1 (h.sound ho), fun ho => h.best ((hT _ _).2 ho)⟩

theorem cost_le (h : es.Lists T) (hes : es.Ascending) {p : Nat} {o o' : Outcome}
    (ho : (p, o) ∈ es) (ho' : T p o') : o.cost ≤ o'.cost := by
  obtain ⟨b, hb, hcost⟩ := h.best ho'
  rwa [← eq_of_mem hes ho hb] at hcost

theorem isSome_get? (h : es.Lists T) (hes : es.Ascending) {p : Nat} :
    (es.get? p).isSome ↔ ∃ o, T p o := by
  constructor
  · intro hs
    obtain ⟨o, ho⟩ := Option.isSome_iff_exists.1 hs
    exact ⟨o, h.sound (mem_of_get? ho)⟩
  · rintro ⟨o, ho⟩
    obtain ⟨o', ho', -⟩ := h.best ho
    rw [get?_of_mem hes ho']
    rfl

theorem get?_eq_none (h : es.Lists T) (hes : es.Ascending) {p : Nat} :
    es.get? p = none ↔ ∀ o, ¬ T p o := by
  rw [← Option.not_isSome_iff_eq_none, h.isSome_get? hes, not_exists]

/-- The ends left by a list of offers stand for the offers. -/
theorem offerAll (xs : List (Nat × Outcome)) :
    (Ends.offerAll xs []).Lists fun p o => (p, o) ∈ xs where
  sound ho := by simpa using mem_of_mem_offerAll ascending_nil ho
  best ho := exists_mem_offerAll ascending_nil (.inl ho)

/-- The ends of a part behind a frontier stand for the ways through the frontier. -/
theorem behind {part : Nat → Ends} {S : Nat → Nat → Outcome → Prop} (h : es.Lists T)
    (hpart : ∀ p, (part p).Lists (S p)) :
    (Ends.behind part es).Lists fun q o => ∃ p a b, T p a ∧ S p q b ∧ o = a.andThen b where
  sound ho := by
    obtain ⟨p, a, b, ha, hb, rfl⟩ := mem_offersBehind.1 ((offerAll _).sound ho)
    exact ⟨p, a, b, h.sound ha, (hpart p).sound hb, rfl⟩
  best := by
    rintro q o ⟨p, a, b, ha, hb, rfl⟩
    obtain ⟨a', ha', hcosta⟩ := h.best ha
    obtain ⟨b', hb', hcostb⟩ := (hpart p).best hb
    obtain ⟨o', ho', hcost⟩ :=
      (offerAll _).best (mem_offersBehind.2 ⟨p, a', b', ha', hb', rfl⟩)
    exact ⟨o', ho', hcost.trans (Outcome.cost_andThen_le hcosta hcostb)⟩

end Lists

end Ends

end IntentGrammar
