import IntentGrammar.Proofs.Nullable

/-!
# The edges of a run

Stopwords are skipped in front of the parts of a series, not of the first one of an inner series,
so that a run should start and end with a token that some word or wildcard takes.  That is so where
the parts at the edges take something.  A part that is left out takes the place at the edge from the
next one, and in front of that one stopwords are skipped.

`Utterance.TakesAt` is `Utterance.Takes` with the positions of the tokens that words and wildcards
take.  `Pattern.firmStart` and `Pattern.firmEnd` say that no part at the edge can be left out.

* `Phrase.reports_edges` : **the runs of an inner series start and end with a token that is taken,
  where the edges of the series are firm**.
-/

namespace IntentGrammar

/-! ### Firm edges -/

namespace Pattern

mutual

/-- A run of the pattern starts with a token that a word or a wildcard takes: no series in it has a
first part that can be left out in front of another one. -/
def firmStart : Pattern → Bool
  | .word _ _ _ | .wildcard _ _ | .foreign _ => true
  | .choice _ options _ => allFirmStart options
  | .series _ parts => firstFirm parts
  | .slot _ _ inner _ => inner.firmStart

/-- Runs of all patterns of a list start with a token that is taken. -/
def allFirmStart : List Pattern → Bool
  | [] => true
  | p :: ps => p.firmStart && allFirmStart ps

/-- The first part is firm, and it takes something if it is not the only one. -/
def firstFirm : List Pattern → Bool
  | [] => true
  | p :: ps => p.firmStart && (ps.isEmpty || !p.nullable)

end

mutual

/-- A run of the pattern ends with a token that a word or a wildcard takes: no series in it has a
last part that can be left out behind another one. -/
def firmEnd : Pattern → Bool
  | .word _ _ _ | .wildcard _ _ | .foreign _ => true
  | .choice _ options _ => allFirmEnd options
  | .series _ parts => lastFirm true parts
  | .slot _ _ inner _ => inner.firmEnd

/-- Runs of all patterns of a list end with a token that is taken. -/
def allFirmEnd : List Pattern → Bool
  | [] => true
  | p :: ps => p.firmEnd && allFirmEnd ps

/-- The last part is firm, and it takes something if it is not the only one; `only` says that no
part stands in front of the list. -/
def lastFirm (only : Bool) : List Pattern → Bool
  | [] => true
  | [p] => p.firmEnd && (only || !p.nullable)
  | _ :: q :: ps => lastFirm false (q :: ps)

end

theorem allFirmStart_eq (ps : List Pattern) : allFirmStart ps = ps.all firmStart := by
  induction ps with
  | nil => rfl
  | cons p ps ih => rw [allFirmStart, ih, List.all_cons]

theorem allFirmEnd_eq (ps : List Pattern) : allFirmEnd ps = ps.all firmEnd := by
  induction ps with
  | nil => rfl
  | cons p ps ih => rw [allFirmEnd, ih, List.all_cons]

/-- Behind another part, a row with a firm end takes something. -/
theorem exists_not_nullable_of_lastFirm {p : Pattern} {ps : List Pattern}
    (h : lastFirm false (p :: ps) = true) : ∃ q ∈ p :: ps, q.nullable = false := by
  induction ps generalizing p with
  | nil =>
    rw [lastFirm, Bool.false_or, Bool.and_eq_true, Bool.not_eq_true'] at h
    exact ⟨p, List.mem_cons_self, h.2⟩
  | cons q ps ih =>
    obtain ⟨r, hr, hnull⟩ := ih (by rwa [lastFirm] at h)
    exact ⟨r, List.mem_cons_of_mem _ hr, hnull⟩

end Pattern

/-! ### Alignments with places -/

namespace Utterance

variable (U : Utterance)

mutual

/-- The pattern takes a run with an outcome, as in `Takes`, and its words and wildcards take the
tokens at the places; the other tokens of the run are skipped. -/
inductive TakesAt (R : OptionRule) : Pattern → Nat → Nat → Outcome → List Nat → Prop
  | word {l literal optional s} : U.reads s (Pattern.key literal) = true →
      TakesAt R (.word l literal optional) s (s + 1) .free [s]
  | noWord {l literal s} : TakesAt R (.word l literal true) s s .free []
  | wildcard {l optional s e} : s < e → e ≤ U.size →
      TakesAt R (.wildcard l optional) s e (.taking (e - s)) (List.range' s (e - s))
  | noWildcard {l s} : TakesAt R (.wildcard l true) s s .free []
  | option {l before p after optional s e o places} : R before s e → TakesAt R p s e o places →
      TakesAt R (.choice l (before ++ p :: after) optional) s e o places
  | noOption {l options s} : R options s s → TakesAt R (.choice l options true) s s .free []
  | series {l parts s e o places} : TakesAllAt R false parts s e o places →
      TakesAt R (.series l parts) s e o places
  | slot {l name inner kind s e o places} : TakesAt R inner s e o places →
      TakesAt R (.slot l name inner kind) s e (o.andThen (.spanning name s e)) places

/-- The parts take their runs, as in `TakesAll`, and the tokens at the places. -/
inductive TakesAllAt (R : OptionRule) :
    Bool → List Pattern → Nat → Nat → Outcome → List Nat → Prop
  | nil {lead s} : TakesAllAt R lead [] s s .free []
  | cons {lead p ps s n m e a b first rest} : (lead = false → n = 0) → U.StopsAt s n →
      TakesAt R p (s + n) m a first → TakesAllAt R true ps m e b rest →
      TakesAllAt R lead (p :: ps) s e ((Outcome.skipping n).andThen (a.andThen b))
        (first ++ rest)

end

variable {U} {R : OptionRule} {s e : Nat} {o : Outcome} {places : List Nat}

theorem TakesAllAt.takesAll_of {lead : Bool} {ps : List Pattern}
    (hps : ∀ p ∈ ps, ∀ s e o places, U.TakesAt R p s e o places → U.Takes R p s e o)
    (h : U.TakesAllAt R lead ps s e o places) : U.TakesAll R lead ps s e o := by
  induction ps generalizing lead s e o places with
  | nil => cases h; exact .nil
  | cons p ps ih =>
    cases h with
    | cons hlead hstop hp hall =>
      exact .cons hlead hstop (hps p List.mem_cons_self _ _ _ _ hp)
        (ih (fun q hq => hps q (List.mem_cons_of_mem _ hq)) hall)

/-- An alignment with places is an alignment. -/
theorem TakesAt.takes {p : Pattern} (h : U.TakesAt R p s e o places) : U.Takes R p s e o := by
  induction p using Pattern.node_induction generalizing s e o places with
  | word l literal optional =>
    cases h with
    | word h => exact .word h
    | noWord => exact .noWord
  | wildcard l optional =>
    cases h with
    | wildcard h h' => exact .wildcard h h'
    | noWildcard => exact .noWildcard
  | choice l options optional ih =>
    cases h with
    | option hR hp => exact .option hR (ih _ (by simp) hp)
    | noOption hR => exact .noOption hR
  | series l parts ih =>
    cases h with
    | series h => exact .series (h.takesAll_of fun p hp _ _ _ _ => ih p hp)
  | slot l name inner kind ih =>
    cases h with
    | slot h => exact .slot (ih h)
  | foreign v => cases h

theorem TakesAllAt.takesAll {lead : Bool} {ps : List Pattern}
    (h : U.TakesAllAt R lead ps s e o places) : U.TakesAll R lead ps s e o :=
  h.takesAll_of fun _ _ _ _ _ _ => TakesAt.takes

theorem TakesAll.exists_places_of {lead : Bool} {ps : List Pattern}
    (hps : ∀ p ∈ ps, ∀ s e o, U.Takes R p s e o → ∃ places, U.TakesAt R p s e o places)
    (h : U.TakesAll R lead ps s e o) : ∃ places, U.TakesAllAt R lead ps s e o places := by
  induction ps generalizing lead s e o with
  | nil => cases h; exact ⟨_, .nil⟩
  | cons p ps ih =>
    cases h with
    | cons hlead hstop hp hall =>
      obtain ⟨first, hfirst⟩ := hps p List.mem_cons_self _ _ _ hp
      obtain ⟨rest, hrest⟩ := ih (fun q hq => hps q (List.mem_cons_of_mem _ hq)) hall
      exact ⟨_, .cons hlead hstop hfirst hrest⟩

/-- Every alignment has its places. -/
theorem Takes.exists_places {p : Pattern} (h : U.Takes R p s e o) :
    ∃ places, U.TakesAt R p s e o places := by
  induction p using Pattern.node_induction generalizing s e o with
  | word l literal optional =>
    cases h with
    | word h => exact ⟨_, .word h⟩
    | noWord => exact ⟨_, .noWord⟩
  | wildcard l optional =>
    cases h with
    | wildcard h h' => exact ⟨_, .wildcard h h'⟩
    | noWildcard => exact ⟨_, .noWildcard⟩
  | choice l options optional ih =>
    cases h with
    | option hR hp =>
      obtain ⟨places, h⟩ := ih _ (by simp) hp
      exact ⟨places, .option hR h⟩
    | noOption hR => exact ⟨_, .noOption hR⟩
  | series l parts ih =>
    cases h with
    | series h =>
      obtain ⟨places, h⟩ := h.exists_places_of fun p hp _ _ _ => ih p hp
      exact ⟨places, .series h⟩
  | slot l name inner kind ih =>
    cases h with
    | slot h =>
      obtain ⟨places, h⟩ := ih h
      exact ⟨places, .slot h⟩
  | foreign v => cases h

/-! ### Tokens at the edges -/

theorem nullable_of_takesAt {p : Pattern} (h : U.TakesAt R p s s o places) :
    p.nullable = true :=
  (exists_takes_self_iff p).1 ⟨o, h.takes.any⟩

/-- A run of a pattern with a firm start starts with a token that is taken. -/
theorem TakesAt.start_mem {p : Pattern} (h : U.TakesAt R p s e o places) (hse : s < e)
    (hfirm : p.firmStart = true) : s ∈ places := by
  induction p using Pattern.node_induction generalizing s e o places with
  | word l literal optional =>
    cases h with
    | word => exact List.mem_singleton.2 rfl
    | noWord => exact absurd hse (lt_irrefl s)
  | wildcard l optional =>
    cases h with
    | wildcard => exact List.mem_range'_1.2 ⟨le_rfl, by omega⟩
    | noWildcard => exact absurd hse (lt_irrefl s)
  | choice l options optional ih =>
    rw [Pattern.firmStart, Pattern.allFirmStart_eq, List.all_eq_true] at hfirm
    cases h with
    | option hR hp => exact ih _ (by simp) hp hse (hfirm _ (by simp))
    | noOption => exact absurd hse (lt_irrefl s)
  | series l parts ih =>
    rw [Pattern.firmStart] at hfirm
    cases h with
    | series h =>
      cases h with
      | nil => exact absurd hse (lt_irrefl s)
      | @cons _ p ps _ n m _ a b first rest hlead hstop hp hall =>
        obtain rfl := hlead rfl
        rw [Pattern.firstFirm, Bool.and_eq_true, Bool.or_eq_true, Bool.not_eq_true',
          List.isEmpty_iff] at hfirm
        obtain ⟨hfirst, halone⟩ := hfirm
        rcases hp.takes.le.eq_or_lt with rfl | hlt
        · -- the first part is left out, so it is the only one and nothing is taken
          rcases halone with rfl | hnot
          · cases hall
            exact absurd hse (lt_irrefl _)
          · cases hnot.symm.trans (nullable_of_takesAt hp)
        · exact List.mem_append_left _ (ih p List.mem_cons_self hp hlt hfirst)
  | slot l name inner kind ih =>
    rw [Pattern.firmStart] at hfirm
    cases h with
    | slot h => exact ih h hse hfirm
  | foreign v => cases h

/-- A row with a firm end ends with a token that is taken.  If nothing stands in front of it, no
stopwords are skipped in front of it either. -/
theorem TakesAllAt.last_mem_of {ps : List Pattern}
    (hps : ∀ p ∈ ps, ∀ s e o places, U.TakesAt R p s e o places → s < e → p.firmEnd = true →
      e - 1 ∈ places) {lead only : Bool} (hlead : only = true → lead = false)
    (h : U.TakesAllAt R lead ps s e o places) (hse : s < e)
    (hfirm : Pattern.lastFirm only ps = true) : e - 1 ∈ places := by
  induction ps generalizing lead only s e o places with
  | nil =>
    cases h
    exact absurd hse (lt_irrefl s)
  | cons p ps ih =>
    cases h with
    | @cons _ _ _ _ n m _ a b first rest hskip hstop hp hall =>
      cases ps with
      | nil =>
        cases hall
        rw [Pattern.lastFirm, Bool.and_eq_true, Bool.or_eq_true, Bool.not_eq_true'] at hfirm
        obtain ⟨hlast, halone⟩ := hfirm
        rcases hp.takes.le.eq_or_lt with rfl | hlt
        · -- the last part is left out, so it is the only one and nothing was skipped in front
          rcases halone with honly | hnot
          · obtain rfl := hskip (hlead honly)
            exact absurd hse (lt_irrefl _)
          · cases hnot.symm.trans (nullable_of_takesAt hp)
        · exact List.mem_append_left _ (hps p List.mem_cons_self _ _ _ _ hp hlt hlast)
      | cons q ps =>
        rw [Pattern.lastFirm] at hfirm
        have hle : m ≤ e := (Nat.le_add_right _ _).trans hall.takesAll.totalWidth_le
        rcases hle.eq_or_lt with rfl | hlt
        · -- some part behind the first takes a token, so the first does not end the run
          obtain ⟨r, hr, hnot⟩ := Pattern.exists_not_nullable_of_lastFirm hfirm
          obtain ⟨c, hc⟩ := exists_takesAll_self_iff.1
            ⟨b, hall.takesAll.mono_of fun _ _ _ _ _ => Takes.any⟩ r hr
          cases hnot.symm.trans ((exists_takes_self_iff r).1 ⟨c, hc⟩)
        · exact List.mem_append_right _
            (ih (fun r hr => hps r (List.mem_cons_of_mem _ hr))
              (fun honly : false = true => absurd honly Bool.false_ne_true) hall hlt hfirm)

/-- A run of a pattern with a firm end ends with a token that is taken. -/
theorem TakesAt.end_mem {p : Pattern} (h : U.TakesAt R p s e o places) (hse : s < e)
    (hfirm : p.firmEnd = true) : e - 1 ∈ places := by
  induction p using Pattern.node_induction generalizing s e o places with
  | word l literal optional =>
    cases h with
    | word => exact List.mem_singleton.2 rfl
    | noWord => exact absurd hse (lt_irrefl s)
  | wildcard l optional =>
    cases h with
    | wildcard => exact List.mem_range'_1.2 (by omega)
    | noWildcard => exact absurd hse (lt_irrefl s)
  | choice l options optional ih =>
    rw [Pattern.firmEnd, Pattern.allFirmEnd_eq, List.all_eq_true] at hfirm
    cases h with
    | option hR hp => exact ih _ (by simp) hp hse (hfirm _ (by simp))
    | noOption => exact absurd hse (lt_irrefl s)
  | series l parts ih =>
    rw [Pattern.firmEnd] at hfirm
    cases h with
    | series h =>
      exact h.last_mem_of (fun p hp _ _ _ _ hp' => ih p hp hp') (fun _ => rfl) hse hfirm
  | slot l name inner kind ih =>
    rw [Pattern.firmEnd] at hfirm
    cases h with
    | slot h => exact ih h hse hfirm
  | foreign v => cases h

end Utterance

namespace Phrase

open Template

variable {P : Phrase} {U : Utterance} {s e : Nat} {o : Outcome}

/-- **An inner series starts and ends with tokens that are taken, where its edges are firm.**  In a
compiled phrase, every end that is reported for a series below the body comes with the outcome of an
alignment of the series.  If no part at the start of the series can be left out, a word or a
wildcard takes the first token of the run, and if none can at the end, one takes the last token. -/
theorem reports_edges {E : Entities} (hE : E.Usable) {intent : Option String} {template : String}
    (hP : compile E intent template = .ok P) {l : Nat} {parts : List Pattern}
    (hq : .series l parts ∈ P.body.nodes) (hne : .series l parts ≠ P.body)
    (ho : P.Reports U (.series l parts) s e o) (hse : s < e) :
    ∃ places, U.TakesAt U.firstOption (.series l parts) s e o places ∧
      ((Pattern.series l parts).firmStart = true → s ∈ places) ∧
      ((Pattern.series l parts).firmEnd = true → e - 1 ∈ places) := by
  obtain ⟨_, h⟩ := wellFormed_of_compile hE hP
  obtain ⟨places, hplaces⟩ := (ho.takes h hq hne).exists_places
  exact ⟨places, hplaces, hplaces.start_mem hse, hplaces.end_mem hse⟩

/-- The parts of the option `turn it off`. -/
def turnParts : List Pattern := [.word 3 "turn" false, .word 4 "it" false, .word 5 "off" false]

/-- The phrase `(turn it off | stop)`. -/
def turnOff : Phrase where
  body := .series 0 [.choice 1 [.series 2 turnParts, .word 6 "stop" false] false]
  intent := none
  tags := []
  source := "(turn it off | stop)"

/-- An utterance for it, with a stopword in the middle. -/
def turnUtterance : Utterance := ⟨Token.tokenize "turn it please off", .english⟩

/-- The stopword in the middle is skipped, and the words around it are taken. -/
theorem turnOff_edges : compile Entities.none none "(turn it off | stop)" = .ok turnOff ∧
    ∃ places, turnUtterance.TakesAt turnUtterance.firstOption (.series 2 turnParts) 0 4
      (.skipping 1) places ∧ 0 ∈ places ∧ 3 ∈ places := by
  have hP : compile Entities.none none "(turn it off | stop)" = .ok turnOff := by
    with_unfolding_all rfl
  obtain ⟨_, h⟩ := wellFormed_of_compile Entities.usable_none hP
  have hq : Pattern.series 2 turnParts ∈ turnOff.body.nodes := by
    simp [turnOff, Pattern.nodes, Pattern.nodesOfAll]
  have ho : turnOff.Reports turnUtterance (.series 2 turnParts) 0 4 (.skipping 1) := by
    rw [reports_iff h hq (Nat.zero_le _)]
    decide +kernel
  obtain ⟨places, hplaces, hstart, hend⟩ :=
    reports_edges Entities.usable_none hP hq (by simp [turnOff]) ho (by decide)
  exact ⟨hP, places, hplaces, hstart (by decide), hend (by decide)⟩

/-- The parts of the option `very? loud`. -/
def loudParts : List Pattern := [.word 3 "very" true, .word 4 "loud" false]

/-- The phrase `(very? loud | please loud)`. -/
def volume : Phrase where
  body := .series 0 [.choice 1 [.series 2 loudParts,
    .series 5 [.word 6 "please" false, .word 7 "loud" false]] false]
  intent := none
  tags := []
  source := "(very? loud | please loud)"

/-- An utterance for it. -/
def loudUtterance : Utterance := ⟨Token.tokenize "please loud", .english⟩

/-- No word of the option `very? loud` takes the first token. -/
theorem not_zero_mem_loudParts {e : Nat} {o : Outcome} {places : List Nat}
    (h : loudUtterance.TakesAt anyOption (.series 2 loudParts) 0 e o places) : 0 ∉ places := by
  have hvery : loudUtterance.reads 0 (Pattern.key "very") = false := by decide +kernel
  have hloud : loudUtterance.reads 0 (Pattern.key "loud") = false := by decide +kernel
  have hword {l : Nat} {literal : String} {optional : Bool} {n m : Nat} {a : Outcome}
      {taken : List Nat} (hno : loudUtterance.reads 0 (Pattern.key literal) = false)
      (h : loudUtterance.TakesAt anyOption (.word l literal optional) n m a taken) :
      0 ∉ taken := by
    cases h with
    | word hread =>
      intro hmem
      rw [← List.mem_singleton.1 hmem, hno] at hread
      cases hread
    | noWord => exact List.not_mem_nil
  cases h with
  | series h =>
    cases h with
    | cons _ _ hfirst hall =>
      cases hall with
      | cons _ _ hlast hnil =>
        cases hnil
        rw [List.append_nil, List.mem_append, not_or]
        exact ⟨hword hvery hfirst, hword hloud hlast⟩

/-- In `very? loud`, `very` can be left out, and `please` is then skipped at the start of the run:
no alignment with the outcome that is reported takes the first token. -/
theorem volume_start_skipped :
    compile Entities.none none "(very? loud | please loud)" = .ok volume ∧
    volume.Reports loudUtterance (.series 2 loudParts) 0 2 (.skipping 1) ∧
      ∀ places, loudUtterance.TakesAt anyOption (.series 2 loudParts) 0 2 (.skipping 1) places →
        0 ∉ places := by
  have hP : compile Entities.none none "(very? loud | please loud)" = .ok volume := by
    with_unfolding_all rfl
  obtain ⟨_, h⟩ := wellFormed_of_compile Entities.usable_none hP
  have hq : Pattern.series 2 loudParts ∈ volume.body.nodes := by
    simp [volume, Pattern.nodes, Pattern.nodesOfAll]
  exact ⟨hP, (reports_iff h hq (Nat.zero_le _)).2 (by decide +kernel),
    fun places => not_zero_mem_loudParts⟩

end Phrase

end IntentGrammar
