import IntentGrammar.Proofs.Sharing

/-!
# Grouping parts

A run of parts may be put into a group of its own, a choice with this series as its only option,
without any effect on what is recognised and at which cost.  The group skips no stopwords at its
edges, and it need not: those in front of it are skipped where the parts used to skip them in front
of their first, and those behind it in front of the next part or at the end of the body.

The alignments are the same ones (`Utterance.takesBody_group`), so the cheapest of them cost the
same (`Ends.Lists.map_cost_get?`).

* `Phrase.recognise_group` : **a group of parts is recognised as the parts are**, at the same cost.
-/

namespace IntentGrammar

/-- The group of some parts: the choice with their series as its only option. -/
def Pattern.group (label inner : Nat) (parts : List Pattern) : Pattern :=
  .choice label [.series inner parts] false

namespace Ends

/-- Ends that stand for the same agree on the costs. -/
theorem Lists.map_cost_get? {es es' : Ends} {T : Nat → Outcome → Prop} (h : es.Lists T)
    (hes : es.Ascending) (h' : es'.Lists T) (hes' : es'.Ascending) (p : Nat) :
    (es.get? p).map Outcome.cost = (es'.get? p).map Outcome.cost := by
  cases ho : es.get? p with
  | none => rw [(h'.get?_eq_none hes').2 ((h.get?_eq_none hes).1 ho)]
  | some o =>
    have hmem := mem_of_get? ho
    obtain ⟨o', hmem', hle'⟩ := h'.best (h.sound hmem)
    have hle := h.cost_le hes hmem (h'.sound hmem')
    rw [get?_of_mem hes' hmem', Option.map_some, Option.map_some, le_antisymm hle hle']

end Ends

namespace Utterance

variable {U : Utterance} {R : OptionRule}

/-! ### Parts in a row -/

/-- The parts of two runs take one stretch after the other; in front of the second run stopwords
are skipped, unless it stands at the front itself. -/
theorem takesAll_append {lead : Bool} {ps qs : List Pattern} {s e : Nat} {o : Outcome} :
    U.TakesAll R lead (ps ++ qs) s e o ↔
      ∃ m a b, U.TakesAll R lead ps s m a ∧ U.TakesAll R (lead || !ps.isEmpty) qs m e b ∧
        o = a.andThen b := by
  induction ps generalizing lead s o with
  | nil =>
    simp only [List.nil_append, takesAll_nil, List.isEmpty_nil, Bool.not_true, Bool.or_false]
    constructor
    · intro h
      exact ⟨s, .free, o, ⟨rfl, rfl⟩, h, (Outcome.free_andThen o).symm⟩
    · rintro ⟨_, _, b, ⟨rfl, rfl⟩, h, rfl⟩
      rwa [Outcome.free_andThen]
  | cons p ps ih =>
    simp only [List.cons_append, takesAll_cons, ih, List.isEmpty_cons, Bool.not_false,
      Bool.or_true, Bool.true_or]
    constructor
    · rintro ⟨n, k, a, _, hlead, hstop, hp, ⟨m, b, c, hps, hqs, rfl⟩, rfl⟩
      exact ⟨m, _, c, ⟨n, k, a, b, hlead, hstop, hp, hps, rfl⟩, hqs,
        by simp only [Outcome.andThen_assoc]⟩
    · rintro ⟨m, _, c, ⟨n, k, a, b, hlead, hstop, hp, hps, rfl⟩, hqs, rfl⟩
      exact ⟨n, k, a, _, hlead, hstop, hp, ⟨m, b, c, hps, hqs, rfl⟩,
        by simp only [Outcome.andThen_assoc]⟩

/-- To skip stopwords in front of a run of parts is to skip them in front of its first part. -/
theorem takesAll_lead {ps : List Pattern} (hne : ps ≠ []) {s e : Nat} {o : Outcome} :
    U.TakesAll R true ps s e o ↔
      ∃ n a, U.StopsAt s n ∧ U.TakesAll R false ps (s + n) e a ∧
        o = (Outcome.skipping n).andThen a := by
  obtain ⟨p, ps, rfl⟩ := List.exists_cons_of_ne_nil hne
  constructor
  · intro h
    obtain ⟨n, m, a, b, -, hstop, hp, hps, rfl⟩ := takesAll_cons.1 h
    exact ⟨n, _, hstop, .cons (fun _ => rfl) (stopsAt_zero _) hp hps,
      congrArg _ (Outcome.free_andThen _).symm⟩
  · rintro ⟨n, c, hstop, h, rfl⟩
    obtain ⟨k, m, a, b, hk, -, hp, hps, rfl⟩ := takesAll_cons.1 h
    obtain rfl := hk rfl
    rw [show Outcome.skipping 0 = .free from rfl, Outcome.free_andThen]
    exact .cons nofun hstop hp hps

/-! ### Groups -/

variable {l l' : Nat} {xs ys zs : List Pattern}

/-- Under a rule that lets a first option be taken, a group takes what its parts take. -/
theorem takes_group (hR : ∀ s e, R [] s e) {s e : Nat} {o : Outcome} :
    U.Takes R (.group l l' ys) s e o ↔ U.TakesAll R false ys s e o := by
  rw [← takes_series (l := l')]
  constructor
  · intro h
    obtain ⟨before, p, after, hsplit, -, hp⟩ | ⟨hoptional, -⟩ := takes_choice.1 h
    · obtain ⟨rfl, htail⟩ | ⟨-, htail⟩ := List.append_eq_singleton_iff.1 hsplit.symm
      · rw [← (List.cons.inj htail).1]
        exact hp
      · cases htail
    · cases hoptional
  · exact fun h => takes_choice.2 (.inl ⟨[], _, [], rfl, hR s e, h⟩)

/-- In a row that may start on stopwords, a group takes its run as its parts do. -/
theorem takesAll_group (hR : ∀ s e, R [] s e) (hne : ys ≠ []) {s e : Nat} {o : Outcome} :
    U.TakesAll R true (.group l l' ys :: zs) s e o ↔ U.TakesAll R true (ys ++ zs) s e o := by
  rw [takesAll_cons, takesAll_append]
  simp only [takes_group hR, takesAll_lead hne]
  constructor
  · rintro ⟨n, m, a, b, -, hstop, ha, hb, rfl⟩
    exact ⟨m, _, b, ⟨n, a, hstop, ha, rfl⟩, hb, (Outcome.andThen_assoc _ _ _).symm⟩
  · rintro ⟨m, _, b, ⟨n, a, hstop, ha, rfl⟩, hb, rfl⟩
    exact ⟨n, m, a, b, nofun, hstop, ha, hb, Outcome.andThen_assoc _ _ _⟩

/-- **A group makes no difference to what a body takes or skips**, wherever it stands in it. -/
theorem takesBody_group (hR : ∀ s e, R [] s e) (hne : ys ≠ []) {s e : Nat} {o : Outcome} :
    U.TakesBody R (xs ++ .group l l' ys :: zs) s e o ↔ U.TakesBody R (xs ++ (ys ++ zs)) s e o := by
  have hall {m : Nat} {a : Outcome} : U.TakesAll R true (xs ++ .group l l' ys :: zs) s m a ↔
      U.TakesAll R true (xs ++ (ys ++ zs)) s m a := by
    rw [takesAll_append, takesAll_append]
    simp only [Bool.true_or, takesAll_group hR hne]
  rw [takesBody_iff, takesBody_iff]
  simp only [hall]

end Utterance

namespace Phrase

variable {P Q : Phrase} {l l' : Nat} {xs ys zs : List Pattern} {U : Utterance}
  {text text' : Option String} {budget budget' : Budget}

/-- **A group of parts is recognised as the parts are.**  Where both attempts keep within their
budgets, the phrase with the group recognises an utterance just when the one with the parts does,
and with the same score. -/
theorem recognise_group (hne : ys ≠ []) (hP : P.WellFormed (xs ++ .group l l' ys :: zs))
    (hQ : Q.WellFormed (xs ++ (ys ++ zs)))
    (hbudget : ¬ Exceeds (P.recognise U.lexicon U.tokens text budget))
    (hbudget' : ¬ Exceeds (Q.recognise U.lexicon U.tokens text' budget')) :
    ∃ grouped flat, (P.recognise U.lexicon U.tokens text budget).1 = .ok grouped ∧
      (Q.recognise U.lexicon U.tokens text' budget').1 = .ok flat ∧
      (grouped.isSome ↔ flat.isSome) ∧
      ∀ r ∈ grouped, ∀ r' ∈ flat, r.score = r'.score := by
  obtain ⟨k, hbody⟩ := hP.body_eq
  obtain ⟨k', hbody'⟩ := hQ.body_eq
  -- among first options, the only option of a group is one
  have hfirst (s e : Nat) : U.firstOption [] s e := fun q hq => absurd hq List.not_mem_nil
  have hgrouped := (Utterance.lists_plainBodyEnds k (xs ++ .group l l' ys :: zs) 0).congr
    fun p o => Utterance.takesBody_group hfirst hne
  have hcost := hgrouped.map_cost_get? (Utterance.ascending_plainBodyEnds k _ 0)
    (Utterance.lists_plainBodyEnds k' (xs ++ (ys ++ zs)) 0)
    (Utterance.ascending_plainBodyEnds k' _ 0) U.size
  rw [← hbody, ← hbody'] at hcost
  refine ⟨_, _, congrArg Prod.fst (recognise_eq hP hbudget),
    congrArg Prod.fst (recognise_eq hQ hbudget'), ?_, ?_⟩
  · have hsome := congrArg Option.isSome hcost
    rw [Option.isSome_map, Option.isSome_map] at hsome
    rw [Option.isSome_map, Option.isSome_map, hsome]
  · intro r hr r' hr'
    obtain ⟨o, ho, rfl⟩ := Option.map_eq_some_iff.1 hr
    obtain ⟨o', ho', rfl⟩ := Option.map_eq_some_iff.1 hr'
    rw [ho, ho'] at hcost
    exact toLex.injective (Option.some.inj hcost)

/-- The parts of `big? light *`. -/
def lampParts : List Pattern := [.word 2 "big" true, .word 3 "light" false, .wildcard 4 false]

/-- The parts of `turn (big? light *) on`. -/
def turnLampParts : List Pattern :=
  [.word 1 "turn" false] ++ .group 6 7 lampParts :: [.word 5 "on" false]

/-- The parts of `turn big? light * on`. -/
def turnFlatParts : List Pattern :=
  [.word 1 "turn" false] ++ (lampParts ++ [.word 5 "on" false])

theorem wellFormed_turnLamp : (ofParts turnLampParts).WellFormed turnLampParts where
  body_eq := ⟨0, rfl⟩
  isLabelled := Pattern.isLabelled_of_nodup (by decide)
  firstForeign?_eq := by decide

theorem wellFormed_turnFlat : (ofParts turnFlatParts).WellFormed turnFlatParts where
  body_eq := ⟨0, rfl⟩
  isLabelled := Pattern.isLabelled_of_nodup (by decide)
  firstForeign?_eq := by decide

/-- The stopword between `turn` and `lite` is skipped in front of the group. -/
theorem turnLamp_score :
    ∃ r, ((ofParts turnLampParts).recognise .english
        (Token.tokenize "please turn um lite red on") none ⟨100, 0⟩).1 = .ok (some r) ∧
      r.score = (2, 1) := by
  obtain ⟨r', hr', houtcome⟩ : ∃ r : Recognition, ((ofParts turnFlatParts).recognise .english
      (Token.tokenize "please turn um lite red on") none ⟨100, 0⟩).1 = .ok (some r) ∧
        r.outcome = ⟨2, 1, []⟩ := exists_recognition (by decide +kernel)
  have hbudget : ¬ Exceeds ((ofParts turnLampParts).recognise .english
      (Token.tokenize "please turn um lite red on") none ⟨100, 0⟩) :=
    not_exceeds_of_isOk (by decide +kernel)
  obtain ⟨grouped, flat, hgrouped, hflat, hsome, hscore⟩ :=
    recognise_group (U := ⟨Token.tokenize "please turn um lite red on", .english⟩) (by decide)
      wellFormed_turnLamp wellFormed_turnFlat hbudget (not_exceeds_of_ok hr')
  obtain rfl := Except.ok.inj (hflat.symm.trans hr')
  obtain ⟨r, rfl⟩ := Option.isSome_iff_exists.1 (hsome.2 rfl)
  exact ⟨r, hgrouped, by rw [hscore r rfl r' rfl, Recognition.score, houtcome]⟩

end Phrase

end IntentGrammar
