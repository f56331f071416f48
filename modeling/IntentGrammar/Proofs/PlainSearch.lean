import IntentGrammar.Proofs.Alignment
import IntentGrammar.Proofs.Ends

/-!
# The plain search

`Utterance.plainEnds` works out the ends of a pattern by recursion on the pattern alone: nothing is
remembered, no position is dropped, and no step is counted.  It stands between the alignments,
which say what is right, and the search, which is what runs.

* `Utterance.lists_plainEnds` : **the plain search finds what there is, at the least cost.**  Its
  entries are the alignments by first options, the cheapest one for every position.
* `Utterance.lists_plainBodyEnds` : the same for the body of a phrase.
-/

namespace IntentGrammar

namespace Utterance

open Ends

variable (U : Utterance)

/-! ### Definition -/

/-- The frontier in front of a part: stopwords are skipped if `lead` holds. -/
def led (lead : Bool) (frontier : Ends) : Ends := if lead then U.skipStops frontier else frontier

mutual

/-- The ends of a pattern at a start position. -/
def plainEnds : Pattern → Nat → Ends
  | .word _ literal optional, start => U.wordEnds literal optional start
  | .wildcard _ optional, start => U.wildcardEnds optional start
  | .choice _ options optional, start =>
    let es := plainOptionEnds options start []
    if optional then es.settle start .free else es
  | .series _ parts, start => plainPartEnds false parts [(start, .free)]
  | .slot _ name inner _, start => (plainEnds inner start).record name start
  | .foreign _, _ => []

/-- The ends of several options at a start position, added to those of the earlier ones. -/
def plainOptionEnds : List Pattern → Nat → Ends → Ends
  | [], _, es => es
  | p :: ps, start, es => plainOptionEnds ps start (settleAll (plainEnds p start) es)

/-- The ends of the parts of a series from a frontier.  Stopwords are skipped in front of every
part; in front of the first only if `lead` holds. -/
def plainPartEnds (lead : Bool) : List Pattern → Ends → Ends
  | [], frontier => frontier
  | p :: ps, frontier => plainPartEnds true ps (behind (plainEnds p) (U.led lead frontier))

end

/-- The ends of the body of a phrase at a start position. -/
def plainBodyEnds : Pattern → Nat → Ends
  | .series _ parts, start => U.skipStops (U.plainPartEnds true parts [(start, .free)])
  | p, start => U.plainEnds p start

variable {U}

/-! ### The leaves -/

theorem ascending_wordEnds (literal : String) (optional : Bool) (start : Nat) :
    (U.wordEnds literal optional start).Ascending := by
  unfold wordEnds Ascending
  cases optional <;> by_cases hr : U.reads start (Pattern.key literal) = true <;> simp [hr]

theorem lists_wordEnds {R : OptionRule} (l : Nat) (literal : String) (optional : Bool)
    (start : Nat) :
    (U.wordEnds literal optional start).Lists (U.Takes R (.word l literal optional) start) := by
  have hmem : ∀ p o, (p, o) ∈ U.wordEnds literal optional start ↔
      U.Takes R (.word l literal optional) start p o := by
    intro p o
    rw [takes_word, wordEnds, List.mem_append]
    cases optional <;> by_cases hr : U.reads start (Pattern.key literal) = true <;>
      simp [hr, or_comm]
  exact ⟨(hmem _ _).1, fun h => ⟨_, (hmem _ _).2 h, le_rfl⟩⟩

theorem ascending_wildcardEnds (optional : Bool) (start : Nat) :
    (U.wildcardEnds optional start).Ascending := by
  have hrange : ((List.range (U.size - start)).map fun n =>
      (start + (n + 1), Outcome.taking (n + 1))).Pairwise (·.1 < ·.1) := by
    rw [List.pairwise_map]
    exact List.pairwise_lt_range.imp fun h => by dsimp only; omega
  unfold wildcardEnds Ascending
  cases optional with
  | false => simpa using hrange
  | true =>
    refine List.pairwise_cons.2 ⟨fun e he => ?_, hrange⟩
    obtain ⟨n, -, rfl⟩ := List.mem_map.1 he
    show start < start + (n + 1)
    omega

theorem lists_wildcardEnds {R : OptionRule} (l : Nat) (optional : Bool) (start : Nat) :
    (U.wildcardEnds optional start).Lists (U.Takes R (.wildcard l optional) start) := by
  have hmem : ∀ p o, (p, o) ∈ U.wildcardEnds optional start ↔
      U.Takes R (.wildcard l optional) start p o := by
    intro p o
    rw [takes_wildcard, wildcardEnds, List.mem_append, or_comm]
    refine or_congr ?_ (by cases optional <;> simp)
    simp only [List.mem_map, List.mem_range, Prod.mk.injEq]
    constructor
    · rintro ⟨n, hn, rfl, rfl⟩
      refine ⟨by omega, by omega, ?_⟩
      rw [Nat.add_sub_cancel_left]
    · rintro ⟨hlt, hle, rfl⟩
      refine ⟨p - start - 1, by omega, by omega, ?_⟩
      congr 1
      omega
  exact ⟨(hmem _ _).1, fun h => ⟨_, (hmem _ _).2 h, le_rfl⟩⟩

/-! ### Slots -/

theorem mem_record {es : Ends} {name : String} {start q : Nat} {o : Outcome} :
    (q, o) ∈ es.record name start ↔
      ∃ a, (q, a) ∈ es ∧ o = a.andThen (.spanning name start q) := by
  have hentry : ∀ stop a, (if start < stop then
      Outcome.andThen a ⟨0, 0, [⟨name, start, stop⟩]⟩ else a) =
        a.andThen (.spanning name start stop) := by
    intro stop a
    unfold Outcome.spanning
    split <;> simp
  simp only [record, List.mem_map, hentry]
  constructor
  · rintro ⟨⟨q', a⟩, ha, heq⟩
    cases heq
    exact ⟨a, ha, rfl⟩
  · rintro ⟨a, ha, rfl⟩
    exact ⟨(q, a), ha, rfl⟩

theorem ascending_record {es : Ends} (h : es.Ascending) (name : String) (start : Nat) :
    (es.record name start).Ascending := by
  unfold record Ascending
  exact List.pairwise_map.2 h

theorem lists_record {es : Ends} {T : Nat → Outcome → Prop} (h : es.Lists T) (name : String)
    (start : Nat) :
    (es.record name start).Lists fun q o =>
      ∃ a, T q a ∧ o = a.andThen (.spanning name start q) where
  sound ho := by
    obtain ⟨a, ha, rfl⟩ := mem_record.1 ho
    exact ⟨a, h.sound ha, rfl⟩
  best := by
    rintro q o ⟨a, ha, rfl⟩
    obtain ⟨a', ha', hcost⟩ := h.best ha
    exact ⟨_, mem_record.2 ⟨a', ha', rfl⟩, Outcome.cost_andThen_le hcost le_rfl⟩

/-! ### Skipping -/

theorem le_length_takeWhile_iff {α : Type} {p : α → Bool} {xs : List α} {n : Nat} :
    n ≤ (xs.takeWhile p).length ↔ ∀ i < n, xs[i]?.any p = true := by
  induction xs generalizing n with
  | nil =>
    simp only [List.takeWhile_nil, List.length_nil, List.getElem?_nil, Option.any_none,
      Bool.false_eq_true, imp_false]
    exact ⟨fun h i hi => by omega, fun h => Nat.not_lt.1 (h 0)⟩
  | cons x xs ih =>
    cases n with
    | zero => simp
    | succ n =>
      by_cases hx : p x = true
      · rw [List.takeWhile_cons_of_pos hx, List.length_cons, Nat.succ_le_succ_iff, ih]
        constructor
        · intro h i hi
          cases i with
          | zero => simpa using hx
          | succ i => simpa using h i (by omega)
        · intro h i hi
          simpa using h (i + 1) (by omega)
      · rw [List.takeWhile_cons_of_neg hx]
        constructor
        · intro h; simp at h
        · intro h
          exact absurd (by simpa using h 0 (by omega)) hx

theorem stopsAt_iff {pos n : Nat} : U.StopsAt pos n ↔ n ≤ U.stopRun pos := by
  rw [stopRun, le_length_takeWhile_iff]
  simp only [StopsAt, isStop, List.getElem?_drop]

variable (U) in
/-- The ends of a run of stopwords. -/
def skipEnds (pos : Nat) : Ends :=
  (List.range (U.stopRun pos + 1)).map fun n => (pos + n, Outcome.skipping n)

/-- To skip stopwords is to place a run of them behind the frontier. -/
theorem skipStops_eq (frontier : Ends) : U.skipStops frontier = behind U.skipEnds frontier := by
  have hfrom : ∀ pos o es, U.skipFrom pos o es =
      offerAll ((U.skipEnds pos).map fun e => (e.1, o.andThen e.2)) es := by
    intro pos o es
    simp only [skipFrom, skipEnds, offerAll, List.foldl_map]
  have hall : ∀ es, frontier.foldl (fun es e => U.skipFrom e.1 e.2 es) es =
      offerAll (offersBehind U.skipEnds frontier) es := by
    induction frontier with
    | nil => intro es; rfl
    | cons e frontier ih =>
      intro es
      rw [List.foldl_cons, ih, hfrom, ← offerAll_append]
      rfl
  exact hall []

theorem ascending_skipStops (frontier : Ends) : (U.skipStops frontier).Ascending := by
  rw [skipStops_eq]; exact ascending_behind _ _

theorem mem_skipEnds {pos q : Nat} {o : Outcome} :
    (q, o) ∈ U.skipEnds pos ↔ ∃ n, U.StopsAt pos n ∧ q = pos + n ∧ o = .skipping n := by
  simp only [skipEnds, List.mem_map, List.mem_range, Nat.lt_succ_iff, ← stopsAt_iff, Prod.mk.injEq]
  exact exists_congr fun n => and_congr_right fun _ => and_congr eq_comm eq_comm

theorem lists_skipStops {F : Ends} {T : Nat → Outcome → Prop} (hF : F.Lists T) :
    (U.skipStops F).Lists fun q o =>
      ∃ m n a, T m a ∧ U.StopsAt m n ∧ q = m + n ∧ o = a.andThen (.skipping n) := by
  have hskip : ∀ pos, (U.skipEnds pos).Lists fun q o =>
      ∃ n, U.StopsAt pos n ∧ q = pos + n ∧ o = .skipping n := fun pos =>
    ⟨mem_skipEnds.1, fun h => ⟨_, mem_skipEnds.2 h, le_rfl⟩⟩
  rw [skipStops_eq]
  refine (hF.behind hskip).congr fun q o => ?_
  constructor
  · rintro ⟨m, a, b, ha, ⟨n, hn, rfl, rfl⟩, rfl⟩
    exact ⟨m, n, a, ha, hn, rfl, rfl⟩
  · rintro ⟨m, n, a, ha, hn, rfl, rfl⟩
    exact ⟨m, a, _, ha, ⟨n, hn, rfl, rfl⟩, rfl⟩

theorem lists_led {F : Ends} {T : Nat → Outcome → Prop} (hF : F.Lists T) (lead : Bool) :
    (U.led lead F).Lists fun q o =>
      ∃ m n a, T m a ∧ (lead = false → n = 0) ∧ U.StopsAt m n ∧ q = m + n ∧
        o = a.andThen (.skipping n) := by
  cases lead with
  | true =>
    refine (lists_skipStops hF).congr fun q o => ?_
    simp
  | false =>
    refine hF.congr fun q o => ⟨fun h => ⟨q, 0, o, h, fun _ => rfl, stopsAt_zero q, rfl, ?_⟩, ?_⟩
    · exact (Outcome.andThen_free o).symm
    · rintro ⟨m, n, a, ha, hn, -, rfl, rfl⟩
      obtain rfl := hn rfl
      exact (Outcome.andThen_free a).symm ▸ ha

/-! ### Parts -/

theorem ascending_plainPartEnds {lead : Bool} {ps : List Pattern} {F : Ends} (hF : F.Ascending) :
    (U.plainPartEnds lead ps F).Ascending := by
  induction ps generalizing lead F with
  | nil => rw [plainPartEnds]; exact hF
  | cons p ps ih => rw [plainPartEnds]; exact ih (ascending_behind _ _)

theorem lists_plainPartEnds {R : OptionRule} (lead : Bool) (ps : List Pattern)
    (hps : ∀ p ∈ ps, ∀ s, (U.plainEnds p s).Lists (U.Takes R p s)) {F : Ends}
    {T : Nat → Outcome → Prop} (hF : F.Lists T) :
    (U.plainPartEnds lead ps F).Lists fun e o =>
      ∃ s a b, T s a ∧ U.TakesAll R lead ps s e b ∧ o = a.andThen b := by
  induction ps generalizing lead F T with
  | nil =>
    rw [plainPartEnds]
    refine hF.congr fun e o => ?_
    simp only [takesAll_nil]
    constructor
    · intro h; exact ⟨e, o, .free, h, ⟨rfl, rfl⟩, (Outcome.andThen_free o).symm⟩
    · rintro ⟨s, a, b, ha, ⟨rfl, rfl⟩, rfl⟩
      exact (Outcome.andThen_free a).symm ▸ ha
  | cons p ps ih =>
    rw [plainPartEnds]
    -- the frontier behind the first part is the one that the induction hypothesis starts from
    have hbehind := (lists_led (U := U) hF lead).behind (hps p List.mem_cons_self)
    refine (ih true (fun q hq => hps q (List.mem_cons_of_mem _ hq)) hbehind).congr fun e o => ?_
    constructor
    · rintro ⟨s, _, d, ⟨q, _, b, ⟨m, n, a, ha, hlead, hstop, rfl, rfl⟩, hb, rfl⟩, hd, rfl⟩
      refine ⟨m, a, _, ha, .cons hlead hstop hb hd, ?_⟩
      simp only [Outcome.andThen_assoc]
    · rintro ⟨m, a, _, ha, hall, rfl⟩
      obtain ⟨n, q, b, d, hlead, hstop, hb, hd, rfl⟩ := takesAll_cons.1 hall
      refine ⟨q, _, d, ⟨m + n, _, b, ⟨m, n, a, ha, hlead, hstop, rfl, rfl⟩, hb, rfl⟩, hd, ?_⟩
      simp only [Outcome.andThen_assoc]

/-! ### Options -/

theorem ascending_plainOptionEnds {ps : List Pattern} {start : Nat} {es : Ends}
    (hes : es.Ascending) : (U.plainOptionEnds ps start es).Ascending := by
  induction ps generalizing es with
  | nil => rw [plainOptionEnds]; exact hes
  | cons p ps ih => rw [plainOptionEnds]; exact ih (ascending_settleAll hes _)

/-- Each end belongs to the earliest option that reaches it. -/
theorem get?_plainOptionEnds (ps : List Pattern) (start : Nat) {es : Ends} (hes : es.Ascending)
    (e : Nat) : (U.plainOptionEnds ps start es).get? e =
      (es.get? e).or (ps.findSome? fun p => (U.plainEnds p start).get? e) := by
  induction ps generalizing es with
  | nil => simp [plainOptionEnds]
  | cons p ps ih =>
    rw [plainOptionEnds, ih (ascending_settleAll hes _), get?_settleAll hes, Option.or_assoc,
      List.findSome?_cons]
    cases (U.plainEnds p start).get? e <;> simp

/-! ### The plain search against the alignments -/

theorem ascending_plainEnds (p : Pattern) (start : Nat) : (U.plainEnds p start).Ascending := by
  induction p using Pattern.node_induction generalizing start with
  | word l literal optional => rw [plainEnds]; exact ascending_wordEnds _ _ _
  | wildcard l optional => rw [plainEnds]; exact ascending_wildcardEnds _ _
  | choice l options optional ih =>
    have hes : (U.plainOptionEnds options start []).Ascending :=
      ascending_plainOptionEnds ascending_nil
    rw [plainEnds]
    cases optional with
    | false => exact hes
    | true => exact ascending_settle hes _ _
  | series l parts ih =>
    rw [plainEnds]; exact ascending_plainPartEnds (ascending_singleton _)
  | slot l name inner kind ih => rw [plainEnds]; exact ascending_record (ih start) _ _
  | foreign v => rw [plainEnds]; exact ascending_nil

theorem get?_plainEnds_choice {l : Nat} {options : List Pattern} {optional : Bool} {start e : Nat} :
    (U.plainEnds (.choice l options optional) start).get? e =
      (options.findSome? fun p => (U.plainEnds p start).get? e).or
        (if optional = true ∧ e = start then some .free else none) := by
  have hget := get?_plainOptionEnds (U := U) options start ascending_nil e
  rw [plainEnds]
  cases optional with
  | false => simpa [get?] using hget
  | true =>
    have hes : (U.plainOptionEnds options start []).Ascending :=
      ascending_plainOptionEnds ascending_nil
    simp only [if_true, get?_settle hes, hget, true_and]
    rfl

theorem lists_start (start : Nat) :
    Lists [(start, .free)] fun p o => p = start ∧ o = .free where
  sound h := by simpa using h
  best := by rintro p o ⟨rfl, rfl⟩; exact ⟨.free, List.mem_singleton.2 rfl, le_rfl⟩

/-- The ends of an option reach exactly what the option takes under any rule. -/
theorem get?_eq_none_iff {p : Pattern} {s e : Nat}
    (h : (U.plainEnds p s).Lists (U.Takes U.firstOption p s)) :
    (U.plainEnds p s).get? e = none ↔ ∀ o, ¬ U.Takes anyOption p s e o := by
  rw [h.get?_eq_none (ascending_plainEnds p s)]
  constructor
  · intro hfirst o ho
    obtain ⟨o', ho'⟩ := ho.exists_first
    exact hfirst o' ho'
  · intro hany o ho
    exact hany o ho.any

/-- **The plain search finds what there is, at the least cost.**  Its entries are alignments by
first options, and no such alignment is cheaper than the entry for its end. -/
theorem lists_plainEnds (p : Pattern) (s : Nat) :
    (U.plainEnds p s).Lists (U.Takes U.firstOption p s) := by
  induction p using Pattern.node_induction generalizing s with
  | word l literal optional => rw [plainEnds]; exact lists_wordEnds l literal optional s
  | wildcard l optional => rw [plainEnds]; exact lists_wildcardEnds l optional s
  | choice l options optional ih =>
    have hasc := ascending_plainEnds (U := U) (.choice l options optional) s
    constructor
    · -- an entry comes from the first option that has one, or from leaving the choice out
      intro e o ho
      have hget := (mem_iff_get? hasc).1 ho
      rw [get?_plainEnds_choice, Option.or_eq_some_iff] at hget
      rcases hget with hfirst | ⟨hnone, hopt⟩
      · obtain ⟨before, p, after, rfl, hp, hbefore⟩ := List.findSome?_eq_some_iff.1 hfirst
        refine .option (fun q hq => ?_) ((ih p (by simp) s).sound (mem_of_get? hp))
        exact (get?_eq_none_iff (ih q (by simp [hq]) s)).1 (hbefore q hq)
      · rw [List.findSome?_eq_none_iff] at hnone
        split at hopt
        · next hcond =>
          obtain ⟨rfl, rfl⟩ := hcond
          cases hopt
          exact .noOption fun q hq => (get?_eq_none_iff (ih q hq _)).1 (hnone q hq)
        · cases hopt
    · -- costs are compared within one option only: `firstOption` leaves no other to compare with
      intro e o ho
      rcases takes_choice.1 ho with ⟨before, p, after, rfl, hbefore, hp⟩ | ⟨rfl, rfl, rfl, hall⟩
      · obtain ⟨o', ho', hcost⟩ := (ih p (by simp) s).best hp
        refine ⟨o', mem_of_get? ?_, hcost⟩
        have hfirst : ((before ++ p :: after).findSome? fun p => (U.plainEnds p s).get? e) =
            some o' :=
          List.findSome?_eq_some_iff.2 ⟨before, p, after, rfl,
            get?_of_mem (ascending_plainEnds p s) ho',
            fun q hq => (get?_eq_none_iff (ih q (by simp [hq]) s)).2 (hbefore q hq)⟩
        rw [get?_plainEnds_choice, hfirst, Option.some_or]
      · refine ⟨.free, mem_of_get? ?_, le_rfl⟩
        have hnone : (options.findSome? fun p => (U.plainEnds p e).get? e) = none :=
          List.findSome?_eq_none_iff.2 fun q hq => (get?_eq_none_iff (ih q hq e)).2 (hall q hq)
        rw [get?_plainEnds_choice, hnone]
        simp
  | series l parts ih =>
    rw [plainEnds]
    refine (lists_plainPartEnds false parts ih (lists_start s)).congr fun e o => ?_
    rw [takes_series]
    constructor
    · rintro ⟨_, _, b, ⟨rfl, rfl⟩, hb, rfl⟩
      exact (Outcome.free_andThen b).symm ▸ hb
    · intro h
      exact ⟨s, .free, o, ⟨rfl, rfl⟩, h, (Outcome.free_andThen o).symm⟩
  | slot l name inner kind ih =>
    rw [plainEnds]
    refine (lists_record (ih s) name s).congr fun e o => ?_
    rw [takes_slot]
  | foreign v =>
    rw [plainEnds]
    exact ⟨fun h => absurd h List.not_mem_nil, fun h => absurd h not_takes_foreign⟩

theorem ascending_plainBodyEnds (l : Nat) (parts : List Pattern) (s : Nat) :
    (U.plainBodyEnds (.series l parts) s).Ascending :=
  ascending_skipStops _

theorem lists_plainBodyEnds (l : Nat) (parts : List Pattern) (s : Nat) :
    (U.plainBodyEnds (.series l parts) s).Lists (U.TakesBody U.firstOption parts s) := by
  have hparts := lists_plainPartEnds (U := U) true parts (fun p _ => lists_plainEnds p)
    (lists_start s)
  refine (lists_skipStops hparts).congr fun e o => ?_
  constructor
  · rintro ⟨m, n, _, ⟨_, _, a, ⟨rfl, rfl⟩, ha, rfl⟩, hstop, rfl, rfl⟩
    rw [Outcome.free_andThen]
    exact .intro ha hstop
  · rintro ⟨ha, hstop⟩
    rename_i m n a
    exact ⟨m, n, a, ⟨s, .free, a, ⟨rfl, rfl⟩, ha, (Outcome.free_andThen a).symm⟩, hstop, rfl, rfl⟩

/-- The plain search of a body reaches the end exactly if the body covers the tokens. -/
theorem isSome_get?_plainBodyEnds (l : Nat) (parts : List Pattern) :
    ((U.plainBodyEnds (.series l parts) 0).get? U.size).isSome ↔
      ∃ o, U.Covers anyOption parts o := by
  rw [(lists_plainBodyEnds l parts 0).isSome_get? (ascending_plainBodyEnds l parts 0)]
  constructor
  · rintro ⟨o, ho⟩; exact ⟨o, ho.any⟩
  · rintro ⟨o, ho⟩; exact ho.exists_first

end Utterance

end IntentGrammar
