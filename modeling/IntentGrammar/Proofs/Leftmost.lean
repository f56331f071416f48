import IntentGrammar.Proofs.Recognition

/-!
# Leftmost alignments

Of several alignments that cost the least, an attempt reports the leftmost one, as long as the parts
of the body are words, wildcards, and slots around wildcards: no other of them places any part
further to the left, neither its start nor its end.

A later offer for an end counts only if it is cheaper, and offers are made from the left; so an
entry behind a frontier comes from the first position from which its end can be reached at its cost
(`Ends.exists_firstWay`).  That looks at one end only.  It decides about all of them since
a part that is placed within a longer run of its own can exchange its end with that run, and both
together cost no more than before (`Ends.Swaps`).  Hence a cheapest alignment that ends further to
the right never starts its last part further to the left, and by induction the entries of a frontier
come with trails that are leftmost (`Ends.Leftmost`).

* `Utterance.leftmost_plainBodyEnds` : the plain search of a body keeps to the left;
* `Phrase.recognition_leftmost` : **the alignment that is reported is the leftmost cheapest one.**
-/

namespace IntentGrammar

namespace Ends

/-! ### First offers -/

/-- What is new after an offer is cheaper than what was there. -/
theorem mem_offer_new {es : Ends} (h : es.Ascending) {p q : Nat} {a o : Outcome}
    (hmem : (q, a) ∈ es.offer p o) :
    (q, a) ∈ es ∨ ((q, a) = (p, o) ∧ ∀ o', (q, o') ∈ es → a.cost < o'.cost) := by
  have hget := get?_of_mem (ascending_offer h _ _) hmem
  rw [get?_offer h] at hget
  split at hget
  · next heq =>
    subst heq
    cases hold : es.get? q with
    | none =>
      rw [hold] at hget
      cases hget
      refine .inr ⟨rfl, fun o' ho' => ?_⟩
      cases hold.symm.trans (get?_of_mem h ho')
    | some old =>
      rw [hold] at hget
      simp only [Option.some.injEq] at hget
      split at hget
      · next hcheaper =>
        subst hget
        refine .inr ⟨rfl, fun o' ho' => ?_⟩
        cases hold.symm.trans (get?_of_mem h ho')
        exact Outcome.cheaper_iff.1 hcheaper
      · subst hget
        exact .inl (mem_of_get? hold)
  · exact .inl (mem_of_get? hget)

theorem mem_offerAll_new {xs : List (Nat × Outcome)} {es : Ends} (h : es.Ascending) {q : Nat}
    {a : Outcome} (hmem : (q, a) ∈ offerAll xs es) :
    (q, a) ∈ es ∨ ((q, a) ∈ xs ∧ ∀ o', (q, o') ∈ es → a.cost < o'.cost) := by
  induction xs generalizing es with
  | nil => exact .inl hmem
  | cons x xs ih =>
    rcases ih (ascending_offer h _ _) hmem with hold | ⟨hin, hless⟩
    · exact (mem_offer_new h hold).imp_right fun ⟨heq, hless⟩ =>
        ⟨List.mem_cons.2 (.inl heq), hless⟩
    · refine .inr ⟨List.mem_cons_of_mem _ hin, fun o' ho' => ?_⟩
      obtain ⟨o'', ho'', hle⟩ := exists_mem_offer h x.1 x.2 ho'
      exact (hless o'' ho'').trans_le hle

/-- The end `e` is reached behind the frontier from the position `s`, and from no earlier one at
that cost. -/
structure FirstWay (part : Nat → Ends) (F : Ends) (s e : Nat) (a b : Outcome) : Prop where
  start : (s, a) ∈ F
  run : (e, b) ∈ part s
  first : ∀ s' a' b', s' < s → (s', a') ∈ F → (e, b') ∈ part s' →
    a.cost + b.cost < a'.cost + b'.cost

/-- An entry behind a frontier comes from the first position from which its end can be reached at
its cost. -/
theorem exists_firstWay {part : Nat → Ends} {F : Ends} (hF : F.Ascending) {e : Nat} {o : Outcome}
    (h : (e, o) ∈ behind part F) : ∃ s a b, FirstWay part F s e a b ∧ o = a.andThen b := by
  induction F using List.reverseRecOn with
  | nil => cases h
  | append_singleton F x ih =>
    obtain ⟨hF, -, hlast⟩ := List.pairwise_append.1 hF
    have hsplit : behind part (F ++ [x]) =
        offerAll ((part x.1).map fun e => (e.1, x.2.andThen e.2)) (behind part F) := by
      rw [behind, offersBehind, List.flatMap_append, offerAll_append, List.flatMap_singleton]
      rfl
    rw [hsplit] at h
    rcases mem_offerAll_new (ascending_behind part F) h with hold | ⟨hnew, hless⟩
    · obtain ⟨s, a, b, hway, ho⟩ := ih hF hold
      refine ⟨s, a, b, ⟨List.mem_append_left _ hway.start, hway.run, ?_⟩, ho⟩
      intro s' a' b' hlt hs' hb'
      rcases List.mem_append.1 hs' with hs' | hs'
      · exact hway.first s' a' b' hlt hs' hb'
      · -- the last position of the frontier is behind all others
        cases List.mem_singleton.1 hs'
        exact absurd (hlast _ hway.start _ List.mem_cons_self) (lt_asymm hlt)
    · obtain ⟨⟨e', b⟩, hb, heq⟩ := List.mem_map.1 hnew
      cases heq
      refine ⟨x.1, x.2, b, ⟨by simp, hb, ?_⟩, rfl⟩
      intro s' a' b' hlt hs' hb'
      rcases List.mem_append.1 hs' with hs' | hs'
      · obtain ⟨o', ho', hle⟩ := exists_mem_offerAll ascending_nil
          (.inl (mem_offersBehind.2 ⟨s', a', b', hs', hb', rfl⟩))
        exact (hless o' ho').trans_le hle
      · cases List.mem_singleton.1 hs'
        exact absurd hlt (lt_irrefl _)

/-! ### Swapping ends -/

/-- Where one run lies within another, the two may exchange their ends at no cost. -/
def Swaps (S : Nat → Nat → Outcome → Prop) : Prop := ∀ ⦃s s' e e' : Nat⦄ ⦃b b' : Outcome⦄,
  s' < s → e < e' → S s e b → S s' e' b' →
    ∃ c d, S s' e c ∧ S s e' d ∧ c.cost + d.cost ≤ b.cost + b'.cost

theorem add_lt_add_of_exchange {α : Type} [AddCommMonoid α] [LinearOrder α]
    [IsOrderedCancelAddMonoid α] {a b a' b' c d : α} (h : a + b < a' + c)
    (h' : a' + b' ≤ a + d) : b + b' < c + d := by
  have hsum : (a + a') + (b + b') < (a + a') + (c + d) := by
    calc (a + a') + (b + b') = (a + b) + (a' + b') := add_add_add_comm a a' b b'
      _ < (a' + c) + (a + d) := add_lt_add_of_lt_of_le h h'
      _ = (a + a') + (c + d) := by rw [add_add_add_comm, add_comm a' a]
  exact lt_of_add_lt_add_left hsum

/-- No cheapest way to an end, or to a later one, starts its last run in front of the first way. -/
theorem FirstWay.le_of_cheapest {part : Nat → Ends} {S : Nat → Nat → Outcome → Prop} {F : Ends}
    {T : Nat → Outcome → Prop} {s e : Nat} {a b : Outcome} (h : FirstWay part F s e a b)
    (hF : F.Lists T) (hpart : ∀ s, (part s).Lists (S s)) (hswaps : Swaps S) {s' q : Nat}
    {a' b' m : Outcome} (heq : e ≤ q) (hs' : (s', a') ∈ F) (hb' : (q, b') ∈ part s')
    (hm : (q, m) ∈ behind part F) (hcheapest : a'.cost + b'.cost ≤ m.cost) : s ≤ s' := by
  have hways := hF.behind hpart
  have hm_le : ∀ {d}, S s q d → m.cost ≤ a.cost + d.cost := fun hd =>
    hways.cost_le (ascending_behind part F) hm ⟨s, a, _, hF.sound h.start, hd, rfl⟩
  by_contra hlt
  rw [not_le] at hlt
  rcases heq.eq_or_lt with rfl | heq
  · have hcheap := hcheapest.trans (hm_le ((hpart s).sound h.run))
    exact absurd (h.first s' a' b' hlt hs' hb') (not_lt.2 hcheap)
  · -- the two last runs exchange their ends, and one of the new ways would be too cheap
    obtain ⟨c, d, hc, hd, hswap⟩ := hswaps hlt heq ((hpart s).sound h.run) ((hpart s').sound hb')
    obtain ⟨c₀, hc₀, hcle⟩ := (hpart s').best hc
    have hdear : a.cost + b.cost < a'.cost + c.cost :=
      (h.first s' a' c₀ hlt hs' hc₀).trans_le (add_le_add le_rfl hcle)
    have hcheap : a'.cost + b'.cost ≤ a.cost + d.cost := hcheapest.trans (hm_le hd)
    exact absurd (add_lt_add_of_exchange hdear hcheap) (not_lt.2 hswap)

/-! ### Leftmost trails -/

/-- Where the parts were placed that led to a position: the start and the end of each. -/
abbrev Trail := List (Nat × Nat)

/-- No part was placed further to the left in the other trail. -/
def Trail.Before (t t' : Trail) : Prop := List.Forall₂ (fun a b => a.1 ≤ b.1 ∧ a.2 ≤ b.2) t t'

/-- The entries stand for the ways with their trails; each of them has a trail that is left of all
the trails that lead to its position, or behind it, at the least cost. -/
structure Leftmost (es : Ends) (T : Trail → Nat → Outcome → Prop) : Prop where
  lists : es.Lists fun p o => ∃ t, T t p o
  exists_trail : ∀ {p o}, (p, o) ∈ es → ∃ t, T t p o ∧
    ∀ q a t' o', p ≤ q → (q, a) ∈ es → T t' q o' → o'.cost ≤ a.cost → t.Before t'

namespace Leftmost

variable {F : Ends} {T T' : Trail → Nat → Outcome → Prop}

theorem congr (h : F.Leftmost T) (hT : ∀ t p o, T t p o ↔ T' t p o) : F.Leftmost T' := by
  have heq : T = T' := funext fun t => funext fun p => funext fun o => propext (hT t p o)
  exact heq ▸ h

/-- **What placing one part preserves.**  The trails may be marked with the place of the part. -/
theorem behind {part : Nat → Ends} {S : Nat → Nat → Outcome → Prop} (hF : F.Leftmost T)
    (mark : Trail → Nat → Nat → Trail) (hasc : F.Ascending) (hpart : ∀ s, (part s).Lists (S s))
    (hswaps : Swaps S)
    (hmark : ∀ {t t' s s' e e'}, Trail.Before t t' → s ≤ s' → e ≤ e' →
      Trail.Before (mark t s e) (mark t' s' e')) :
    (Ends.behind part F).Leftmost fun t e o =>
      ∃ t₀ s a b, T t₀ s a ∧ S s e b ∧ t = mark t₀ s e ∧ o = a.andThen b where
  lists := (hF.lists.behind hpart).congr fun e o => by
    constructor
    · rintro ⟨s, a, b, ⟨t, ht⟩, hb, rfl⟩
      exact ⟨_, t, s, a, b, ht, hb, rfl, rfl⟩
    · rintro ⟨_, t, s, a, b, ht, hb, -, rfl⟩
      exact ⟨s, a, b, ⟨t, ht⟩, hb, rfl⟩
  exists_trail := by
    intro e o he
    obtain ⟨s, a, b, hway, rfl⟩ := exists_firstWay hasc he
    obtain ⟨t, ht, hleast⟩ := hF.exists_trail hway.start
    refine ⟨mark t s e, ⟨t, s, a, b, ht, (hpart s).sound hway.run, rfl, rfl⟩, ?_⟩
    rintro q m _ _ heq hm ⟨t', s', a', b', ht', hb', rfl, rfl⟩ hcost
    rw [Outcome.cost_andThen] at hcost
    obtain ⟨a₀, ha₀, hale⟩ := hF.lists.best ⟨t', ht'⟩
    obtain ⟨b₀, hb₀, hble⟩ := (hpart s').best hb'
    have hle : s ≤ s' := hway.le_of_cheapest hF.lists hpart hswaps heq ha₀ hb₀ hm
      ((add_le_add hale hble).trans hcost)
    -- the way to the start of the last run is a cheapest one as well
    have hcheapest : a'.cost ≤ a₀.cost := by
      have hentry : m.cost ≤ a₀.cost + b'.cost :=
        (hF.lists.behind hpart).cost_le (ascending_behind part F) hm
          ⟨s', a₀, b', hF.lists.sound ha₀, hb', rfl⟩
      exact le_of_add_le_add_right (hcost.trans hentry)
    exact hmark (hleast s' a₀ t' a' hle ha₀ ht' hcheapest) hle heq

end Leftmost

end Ends

/-! ### Places of the parts -/

/-- A word, a wildcard, or a slot around a wildcard. -/
inductive Pattern.IsSimple : Pattern → Prop
  | word {l literal optional} : IsSimple (.word l literal optional)
  | wildcard {l optional} : IsSimple (.wildcard l optional)
  | slot {l name l' optional kind} : IsSimple (.slot l name (.wildcard l' optional) kind)

namespace Utterance

open Ends

variable {U : Utterance}

variable (U) in
/-- The parts take their runs at the given places, one after the other, with runs of stopwords
skipped in front of each of them. -/
inductive PlacesAll : List Pattern → Nat → Nat → Outcome → Trail → Prop
  | nil {s} : PlacesAll [] s s .free []
  | cons {p ps s n m e a b places} : U.StopsAt s n → U.Takes anyOption p (s + n) m a →
      PlacesAll ps m e b places →
      PlacesAll (p :: ps) s e ((Outcome.skipping n).andThen (a.andThen b)) ((s + n, m) :: places)

variable (U) in
/-- The parts of a body take or skip all tokens; each part takes its run at its place. -/
def CoversAt (parts : List Pattern) (o : Outcome) (places : Trail) : Prop :=
  ∃ m n a, U.PlacesAll parts 0 m a places ∧ U.StopsAt m n ∧ U.size = m + n ∧
    o = a.andThen (.skipping n)

theorem takesAll_iff_placesAll {parts : List Pattern} {s e : Nat} {o : Outcome} :
    U.TakesAll anyOption true parts s e o ↔ ∃ places, U.PlacesAll parts s e o places := by
  induction parts generalizing s e o with
  | nil =>
    rw [takesAll_nil]
    constructor
    · rintro ⟨rfl, rfl⟩
      exact ⟨[], .nil⟩
    · rintro ⟨_, ⟨⟩⟩
      exact ⟨rfl, rfl⟩
  | cons p parts ih =>
    rw [takesAll_cons]
    constructor
    · rintro ⟨n, m, a, b, -, hstop, hp, hall, rfl⟩
      obtain ⟨places, hplaces⟩ := ih.1 hall
      exact ⟨_, .cons hstop hp hplaces⟩
    · rintro ⟨_, hplaces⟩
      cases hplaces with
      | cons hstop hp hplaces =>
        exact ⟨_, _, _, _, by simp, hstop, hp, ih.2 ⟨_, hplaces⟩, rfl⟩

/-- The alignments with places are just the alignments. -/
theorem covers_iff_coversAt {parts : List Pattern} {o : Outcome} :
    U.Covers anyOption parts o ↔ ∃ places, U.CoversAt parts o places := by
  rw [Covers, takesBody_iff]
  constructor
  · rintro ⟨m, n, a, hall, hstop, hsize, ho⟩
    obtain ⟨places, hplaces⟩ := takesAll_iff_placesAll.1 hall
    exact ⟨places, m, n, a, hplaces, hstop, hsize, ho⟩
  · rintro ⟨places, m, n, a, hplaces, hstop, hsize, ho⟩
    exact ⟨m, n, a, takesAll_iff_placesAll.2 ⟨places, hplaces⟩, hstop, hsize, ho⟩

/-! ### Which parts swap -/

theorem swaps_skips : Swaps fun s e o => ∃ n, U.StopsAt s n ∧ e = s + n ∧ o = .skipping n := by
  rintro s s' e e' _ _ hs he ⟨n, -, rfl, rfl⟩ ⟨n', hstop', rfl, rfl⟩
  refine ⟨.skipping (s + n - s'), .skipping (s' + n' - s), ⟨_, fun i hi => hstop' i (by omega),
    by omega, rfl⟩, ⟨_, fun i hi => ?_, by omega, rfl⟩, le_of_eq ?_⟩
  · have := hstop' (s - s' + i) (by omega)
    rwa [← Nat.add_assoc, Nat.add_sub_cancel' hs.le] at this
  · simp only [Outcome.cost, Outcome.skipping, ← toLex_add, Prod.mk_add_mk, Nat.add_zero]
    congr 2
    omega

theorem swaps_word (l : Nat) (literal : String) (optional : Bool) :
    Swaps (U.Takes anyOption (.word l literal optional)) := by
  intro s s' e e' b b' hs he h h'
  have hle := h.le
  rcases takes_word.1 h' with ⟨-, rfl, -⟩ | ⟨-, rfl, -⟩ <;> omega

/-- A run within a wildcard: both may be cut anew. -/
theorem takes_wildcard_swap {l : Nat} {optional : Bool} {s s' e e' : Nat} {b b' : Outcome}
    (hs : s' < s) (he : e < e') (h : U.Takes anyOption (.wildcard l optional) s e b)
    (h' : U.Takes anyOption (.wildcard l optional) s' e' b') :
    U.Takes anyOption (.wildcard l optional) s' e (.taking (e - s')) ∧
      U.Takes anyOption (.wildcard l optional) s e' (.taking (e' - s)) ∧
      (Outcome.taking (e - s')).cost + (Outcome.taking (e' - s)).cost ≤ b.cost + b'.cost := by
  have hle := h.le
  obtain ⟨hlt', hsize', rfl⟩ := (takes_wildcard.1 h').resolve_right (by omega)
  refine ⟨.wildcard (by omega) (by omega), .wildcard (by omega) hsize', le_of_eq ?_⟩
  have hcost : b.cost = (Outcome.taking (e - s)).cost := by
    rcases takes_wildcard.1 h with ⟨-, -, rfl⟩ | ⟨-, rfl, rfl⟩
    · rfl
    · rw [Nat.sub_self]
      rfl
  rw [hcost]
  simp only [Outcome.cost, Outcome.taking, ← toLex_add, Prod.mk_add_mk, Nat.add_zero]
  congr 2
  omega

theorem cost_andThen_spanning (a : Outcome) (name : String) (s e : Nat) :
    (a.andThen (.spanning name s e)).cost = a.cost := by
  unfold Outcome.spanning
  split <;> rfl

theorem swaps_of_isSimple {p : Pattern} (hp : p.IsSimple) : Swaps (U.Takes anyOption p) := by
  cases hp with
  | word => exact swaps_word _ _ _
  | wildcard =>
    intro s s' e e' b b' hs he h h'
    exact ⟨_, _, takes_wildcard_swap hs he h h'⟩
  | slot =>
    intro s s' e e' _ _ hs he h h'
    obtain ⟨b, hb, rfl⟩ := takes_slot.1 h
    obtain ⟨b', hb', rfl⟩ := takes_slot.1 h'
    obtain ⟨hc, hd, hcost⟩ := takes_wildcard_swap hs he hb hb'
    refine ⟨_, _, .slot hc, .slot hd, ?_⟩
    simpa only [cost_andThen_spanning] using hcost

theorem lists_of_isSimple {p : Pattern} (hp : p.IsSimple) (s : Nat) :
    (U.plainEnds p s).Lists (U.Takes anyOption p s) := by
  cases hp with
  | word => exact lists_wordEnds _ _ _ _
  | wildcard => exact lists_wildcardEnds _ _ _
  | slot =>
    exact (lists_record (lists_wildcardEnds _ _ _) _ _).congr fun _ _ => takes_slot.symm

/-! ### The plain search keeps to the left -/

theorem leftmost_skipStops {F : Ends} {T : Trail → Nat → Outcome → Prop} (hF : F.Leftmost T)
    (hasc : F.Ascending) :
    (U.skipStops F).Leftmost fun t q o =>
      ∃ m n a, T t m a ∧ U.StopsAt m n ∧ q = m + n ∧ o = a.andThen (.skipping n) := by
  have hskip : ∀ s, (U.skipEnds s).Lists fun q o =>
      ∃ n, U.StopsAt s n ∧ q = s + n ∧ o = .skipping n := fun s =>
    ⟨mem_skipEnds.1, fun h => ⟨_, mem_skipEnds.2 h, le_rfl⟩⟩
  rw [skipStops_eq]
  refine (hF.behind (fun t _ _ => t) hasc hskip swaps_skips
    fun h _ _ => h).congr fun t q o => ?_
  constructor
  · rintro ⟨t, m, a, _, ha, ⟨n, hn, rfl, rfl⟩, rfl, rfl⟩
    exact ⟨m, n, a, ha, hn, rfl, rfl⟩
  · rintro ⟨m, n, a, ha, hn, rfl, rfl⟩
    exact ⟨t, m, a, _, ha, ⟨n, hn, rfl, rfl⟩, rfl, rfl⟩

theorem leftmost_plainPartEnds {parts : List Pattern} (hparts : ∀ p ∈ parts, p.IsSimple)
    {F : Ends} {T : Trail → Nat → Outcome → Prop} (hF : F.Leftmost T) (hasc : F.Ascending) :
    (U.plainPartEnds true parts F).Leftmost fun t e o =>
      ∃ t₀ s a b places, T t₀ s a ∧ U.PlacesAll parts s e b places ∧ t = t₀ ++ places ∧
        o = a.andThen b := by
  induction parts generalizing F T with
  | nil =>
    rw [plainPartEnds]
    refine hF.congr fun t e o => ?_
    constructor
    · intro h
      exact ⟨t, e, o, .free, [], h, .nil, (List.append_nil t).symm, (Outcome.andThen_free o).symm⟩
    · rintro ⟨t, s, a, _, _, ha, ⟨⟩, rfl, rfl⟩
      simpa using ha
  | cons p parts ih =>
    obtain ⟨hp, hparts⟩ := List.forall_mem_cons.1 hparts
    rw [plainPartEnds]
    -- a part marks the trail with its place, the stopwords in front of it do not
    have hbehind := (leftmost_skipStops (U := U) hF hasc).behind (fun t s e => t ++ [(s, e)])
      (ascending_skipStops F) (lists_of_isSimple (U := U) hp) (swaps_of_isSimple hp) fun h hs he =>
        List.rel_append h (.cons ⟨hs, he⟩ .nil)
    refine (ih hparts hbehind (ascending_behind _ _)).congr fun t e o => ?_
    constructor
    · rintro ⟨_, q, _, d, places, ⟨t, _, _, b, ⟨m, n, a, ha, hstop, rfl, rfl⟩, hb, rfl, rfl⟩, hd,
        rfl, rfl⟩
      refine ⟨t, m, a, _, _, ha, .cons hstop hb hd, ?_, ?_⟩
      · rw [List.append_assoc, List.singleton_append]
      · simp only [Outcome.andThen_assoc]
    · rintro ⟨t, m, a, _, _, ha, ⟨⟩, rfl, rfl⟩
      rename_i n q b d places hstop hb hd
      refine ⟨_, q, _, d, places, ⟨t, m + n, _, b, ⟨m, n, a, ha, hstop, rfl, rfl⟩, hb, rfl, rfl⟩,
        hd, ?_, ?_⟩
      · rw [List.append_assoc, List.singleton_append]
      · simp only [Outcome.andThen_assoc]

theorem leftmost_start (s : Nat) :
    Leftmost [(s, .free)] fun t p o => t = [] ∧ p = s ∧ o = .free where
  lists := (lists_start s).congr fun p o => by simp
  exists_trail := by
    intro p o h
    cases List.mem_singleton.1 h
    refine ⟨[], ⟨rfl, rfl, rfl⟩, ?_⟩
    rintro q a _ o' - - ⟨rfl, -, -⟩ -
    exact .nil

/-- **The plain search of a body keeps to the left.** -/
theorem leftmost_plainBodyEnds {parts : List Pattern} (hparts : ∀ p ∈ parts, p.IsSimple) (l : Nat) :
    (U.plainBodyEnds (.series l parts) 0).Leftmost fun t q o =>
      ∃ m n a, U.PlacesAll parts 0 m a t ∧ U.StopsAt m n ∧ q = m + n ∧
        o = a.andThen (.skipping n) := by
  have hall := leftmost_plainPartEnds (U := U) hparts (leftmost_start 0) (ascending_singleton _)
  refine (leftmost_skipStops hall (ascending_plainPartEnds (ascending_singleton _))).congr
    fun t q o => ?_
  constructor
  · rintro ⟨m, n, _, ⟨_, _, _, a, places, ⟨rfl, rfl, rfl⟩, ha, rfl, rfl⟩, hstop, rfl, rfl⟩
    exact ⟨m, n, a, ha, hstop, rfl, by rw [Outcome.free_andThen]⟩
  · rintro ⟨m, n, a, ha, hstop, rfl, rfl⟩
    exact ⟨m, n, a, ⟨[], 0, .free, a, t, ⟨rfl, rfl, rfl⟩, ha, rfl, (Outcome.free_andThen a).symm⟩,
      hstop, rfl, rfl⟩

end Utterance

namespace Phrase

open Utterance

variable {P : Phrase} {parts : List Pattern} {U : Utterance} {text : Option String}
  {budget : Budget} {r : Recognition}

/-- **The alignment that is reported is the leftmost cheapest one.**  If all parts are words,
wildcards, and slots around wildcards, the slots and the cost of a recognition are those of an
alignment that costs no more than any other, and every alignment of the same cost starts and ends
each part at the same position or further to the right. -/
theorem recognition_leftmost (h : P.WellFormed parts) (hparts : ∀ p ∈ parts, p.IsSimple)
    (hr : (P.recognise U.lexicon U.tokens text budget).1 = .ok (some r)) :
    r.slots = captures U.tokens r.outcome.spans ∧
    (∀ o, U.Covers anyOption parts o → toLex r.score ≤ toLex (o.skipped, o.wild)) ∧
    ∃ places, U.CoversAt parts r.outcome places ∧
      ∀ o places', U.CoversAt parts o places' → (o.skipped, o.wild) = r.score →
        List.Forall₂ (fun a b => a.1 ≤ b.1 ∧ a.2 ≤ b.2) places places' := by
  obtain ⟨hentry, hslots, -⟩ := covers_of_recognise h hr
  obtain ⟨l, hbody⟩ := h.body_eq
  rw [hbody] at hentry
  have hmem := Ends.mem_of_get? hentry
  have hleftmost := leftmost_plainBodyEnds (U := U) hparts l
  have hasc := ascending_plainBodyEnds (U := U) l parts 0
  refine ⟨hslots, fun o ho => ?_, ?_⟩
  · obtain ⟨places, m, n, a, hplaces⟩ := covers_iff_coversAt.1 ho
    exact hleftmost.lists.cost_le hasc hmem ⟨places, m, n, a, hplaces⟩
  · obtain ⟨places, ⟨m, n, a, hplaces⟩, hleft⟩ := hleftmost.exists_trail hmem
    refine ⟨places, ⟨m, n, a, hplaces⟩, fun o places' ho hcost => ?_⟩
    exact hleft _ _ places' o le_rfl hmem ho (congrArg toLex hcost).le

/-- The parts of the phrase `[first] [rest]`. -/
def pairParts : List Pattern :=
  [.slot 1 "first" (.wildcard 2 false) none, .slot 3 "rest" (.wildcard 4 false) none]

/-- The phrase with these parts. -/
def pair : Phrase := ⟨.series 0 pairParts, none, [], "[first] [rest]"⟩

theorem wellFormed_pair : pair.WellFormed pairParts where
  body_eq := ⟨0, rfl⟩
  isLabelled := Pattern.isLabelled_of_nodup (by decide)
  firstForeign?_eq := by decide

/-- The first of two slots takes one token, although it could take two at the same cost. -/
theorem pair_leftmost :
    let U : Utterance := ⟨Token.tokenize "one two three", .english⟩
    ∃ r places, (pair.recognise U.lexicon U.tokens none ⟨100, 0⟩).1 = .ok (some r) ∧
      r.slots.get? "first" = some "one" ∧ U.CoversAt pairParts r.outcome places ∧
      List.Forall₂ (fun a b => a.1 ≤ b.1 ∧ a.2 ≤ b.2) places [(0, 2), (2, 3)] := by
  intro U
  obtain ⟨r, hr, houtcome⟩ : ∃ r : Recognition,
      (pair.recognise U.lexicon U.tokens none ⟨100, 0⟩).1 = .ok (some r) ∧
        r.outcome = ⟨0, 3, [⟨"first", 0, 1⟩, ⟨"rest", 1, 3⟩]⟩ :=
    exists_recognition (by decide +kernel)
  have hsimple : ∀ p ∈ pairParts, p.IsSimple :=
    List.forall_mem_cons.2 ⟨.slot, List.forall_mem_singleton.2 .slot⟩
  obtain ⟨hslots, -, places, hplaces, hleft⟩ := recognition_leftmost wellFormed_pair hsimple hr
  have hsize : U.size = 3 := by decide +kernel
  have hother : U.CoversAt pairParts ⟨0, 3, [⟨"first", 0, 2⟩, ⟨"rest", 2, 3⟩]⟩ [(0, 2), (2, 3)] :=
    ⟨3, 0, _, .cons (stopsAt_zero 0) (.slot (.wildcard (by decide) (by omega)))
      (.cons (stopsAt_zero 2) (.slot (.wildcard (by decide) (by omega))) .nil),
      stopsAt_zero 3, hsize, rfl⟩
  refine ⟨r, places, hr, ?_, hplaces, hleft _ _ hother ?_⟩
  · rw [hslots, houtcome]
    decide +kernel
  · rw [Recognition.score, houtcome]

end Phrase

end IntentGrammar
