import IntentGrammar.Search.Align
import IntentGrammar.Proofs.Nodes
import Mathlib.Tactic.ByContra

/-!
# Alignments

What it means that a pattern takes a run of tokens, said without any search: `Utterance.Takes` is
the relation between a pattern, the two ends of the run and the outcome, one constructor for each
way in which a node takes its run.  `Utterance.TakesAll` is the same for the parts of a series,
`Utterance.TakesBody` for the body of a phrase, and `Utterance.Covers` says that the body takes all
tokens.

The relation has an `OptionRule` as a parameter, which restricts when an option of a choice may be
taken.  Under `anyOption` there is no restriction; under `Utterance.firstOption` an option may be
taken over a run only if no option declared before it takes the same run.

* `Utterance.Takes.mono` : fewer restrictions, more alignments.
* `Utterance.Takes.minWidth_le` : a pattern takes at least `Pattern.minWidth` tokens.
* `Utterance.Takes.le_size` : a run that starts among the tokens ends among them.
* `Utterance.Takes.exists_first` : what a pattern takes at all it takes with first options only.
-/

namespace IntentGrammar

/-- What must hold of the options declared before one that is taken from a start to a stop. -/
abbrev OptionRule := List Pattern → Nat → Nat → Prop

/-- Every option may be taken. -/
def anyOption : OptionRule := fun _ _ _ => True

/-- What a slot adds to the outcome of the pattern in it: the span, if it is not empty. -/
def Outcome.spanning (name : String) (start stop : Nat) : Outcome :=
  if start < stop then ⟨0, 0, [⟨name, start, stop⟩]⟩ else .free

namespace Utterance

variable (U : Utterance)

/-- The `n` tokens from `pos` on are stopwords. -/
def StopsAt (pos n : Nat) : Prop := ∀ i < n, U.isStop (pos + i) = true

mutual

/-- The pattern takes the tokens from the first position up to, but not including, the second. -/
inductive Takes (R : OptionRule) : Pattern → Nat → Nat → Outcome → Prop
  | word {l literal optional s} : U.reads s (Pattern.key literal) = true →
      Takes R (.word l literal optional) s (s + 1) .free
  | noWord {l literal s} : Takes R (.word l literal true) s s .free
  | wildcard {l optional s e} : s < e → e ≤ U.size →
      Takes R (.wildcard l optional) s e (.taking (e - s))
  | noWildcard {l s} : Takes R (.wildcard l true) s s .free
  | option {l before p after optional s e o} : R before s e → Takes R p s e o →
      Takes R (.choice l (before ++ p :: after) optional) s e o
  | noOption {l options s} : R options s s → Takes R (.choice l options true) s s .free
  | series {l parts s e o} : TakesAll R false parts s e o → Takes R (.series l parts) s e o
  | slot {l name inner kind s e o} : Takes R inner s e o →
      Takes R (.slot l name inner kind) s e (o.andThen (.spanning name s e))

/-- The parts take their runs one after the other, with runs of stopwords skipped in front of each
of them; in front of the first only if `lead` holds. -/
inductive TakesAll (R : OptionRule) : Bool → List Pattern → Nat → Nat → Outcome → Prop
  | nil {lead s} : TakesAll R lead [] s s .free
  | cons {lead p ps s n m e a b} : (lead = false → n = 0) → U.StopsAt s n →
      Takes R p (s + n) m a → TakesAll R true ps m e b →
      TakesAll R lead (p :: ps) s e ((Outcome.skipping n).andThen (a.andThen b))

end

/-- The parts of a body take their runs, with stopwords skipped at both edges as well. -/
inductive TakesBody (R : OptionRule) (parts : List Pattern) (s : Nat) : Nat → Outcome → Prop
  | intro {m n a} : U.TakesAll R true parts s m a → U.StopsAt m n →
      TakesBody R parts s (m + n) (a.andThen (.skipping n))

/-- The parts of a body take or skip all tokens. -/
def Covers (R : OptionRule) (parts : List Pattern) (o : Outcome) : Prop :=
  U.TakesBody R parts 0 U.size o

/-- None of the options declared before takes the same run. -/
def firstOption : OptionRule := fun before s e => ∀ p ∈ before, ∀ o, ¬ U.Takes anyOption p s e o

variable {U} {R R' : OptionRule}

/-! ### The rules, read backwards -/

theorem takes_word {l : Nat} {literal : String} {optional : Bool} {s e : Nat} {o : Outcome} :
    U.Takes R (.word l literal optional) s e o ↔
      (U.reads s (Pattern.key literal) = true ∧ e = s + 1 ∧ o = .free) ∨
        (optional = true ∧ e = s ∧ o = .free) := by
  constructor
  · intro h
    cases h with
    | word h => exact .inl ⟨h, rfl, rfl⟩
    | noWord => exact .inr ⟨rfl, rfl, rfl⟩
  · rintro (⟨h, rfl, rfl⟩ | ⟨rfl, rfl, rfl⟩)
    · exact .word h
    · exact .noWord

theorem takes_wildcard {l : Nat} {optional : Bool} {s e : Nat} {o : Outcome} :
    U.Takes R (.wildcard l optional) s e o ↔
      (s < e ∧ e ≤ U.size ∧ o = .taking (e - s)) ∨ (optional = true ∧ e = s ∧ o = .free) := by
  constructor
  · intro h
    cases h with
    | wildcard h h' => exact .inl ⟨h, h', rfl⟩
    | noWildcard => exact .inr ⟨rfl, rfl, rfl⟩
  · rintro (⟨h, h', rfl⟩ | ⟨rfl, rfl, rfl⟩)
    · exact .wildcard h h'
    · exact .noWildcard

theorem takes_choice {l : Nat} {options : List Pattern} {optional : Bool} {s e : Nat}
    {o : Outcome} :
    U.Takes R (.choice l options optional) s e o ↔
      (∃ before p after, options = before ++ p :: after ∧ R before s e ∧ U.Takes R p s e o) ∨
        (optional = true ∧ e = s ∧ o = .free ∧ R options s s) := by
  constructor
  · intro h
    cases h with
    | option h h' => exact .inl ⟨_, _, _, rfl, h, h'⟩
    | noOption h => exact .inr ⟨rfl, rfl, rfl, h⟩
  · rintro (⟨before, p, after, rfl, h, h'⟩ | ⟨rfl, rfl, rfl, h⟩)
    · exact .option h h'
    · exact .noOption h

theorem takes_series {l : Nat} {parts : List Pattern} {s e : Nat} {o : Outcome} :
    U.Takes R (.series l parts) s e o ↔ U.TakesAll R false parts s e o :=
  ⟨fun h => by cases h; assumption, .series⟩

theorem takes_slot {l : Nat} {name : String} {inner : Pattern} {kind : Option String}
    {s e : Nat} {o : Outcome} :
    U.Takes R (.slot l name inner kind) s e o ↔
      ∃ a, U.Takes R inner s e a ∧ o = a.andThen (.spanning name s e) := by
  constructor
  · intro h
    cases h with
    | slot h => exact ⟨_, h, rfl⟩
  · rintro ⟨a, h, rfl⟩
    exact .slot h

theorem not_takes_foreign {v : Value} {s e : Nat} {o : Outcome} :
    ¬ U.Takes R (.foreign v) s e o := by
  intro h; cases h

theorem takesAll_nil {lead : Bool} {s e : Nat} {o : Outcome} :
    U.TakesAll R lead [] s e o ↔ e = s ∧ o = .free := by
  constructor
  · intro h; cases h; exact ⟨rfl, rfl⟩
  · rintro ⟨rfl, rfl⟩; exact .nil

theorem takesAll_cons {lead : Bool} {p : Pattern} {ps : List Pattern} {s e : Nat} {o : Outcome} :
    U.TakesAll R lead (p :: ps) s e o ↔
      ∃ n m a b, (lead = false → n = 0) ∧ U.StopsAt s n ∧ U.Takes R p (s + n) m a ∧
        U.TakesAll R true ps m e b ∧ o = (Outcome.skipping n).andThen (a.andThen b) := by
  constructor
  · intro h
    cases h with
    | cons hlead hstop hp hps => exact ⟨_, _, _, _, hlead, hstop, hp, hps, rfl⟩
  · rintro ⟨n, m, a, b, hlead, hstop, hp, hps, rfl⟩
    exact .cons hlead hstop hp hps

theorem takesBody_iff {parts : List Pattern} {s e : Nat} {o : Outcome} :
    U.TakesBody R parts s e o ↔
      ∃ m n a, U.TakesAll R true parts s m a ∧ U.StopsAt m n ∧ e = m + n ∧
        o = a.andThen (.skipping n) := by
  constructor
  · intro h
    cases h with
    | intro ha hstop => exact ⟨_, _, _, ha, hstop, rfl, rfl⟩
  · rintro ⟨m, n, a, ha, hstop, rfl, rfl⟩
    exact .intro ha hstop

theorem stopsAt_zero (pos : Nat) : U.StopsAt pos 0 := fun _ h => absurd h (Nat.not_lt_zero _)

/-! ### Fewer restrictions -/

theorem TakesAll.mono_of {lead : Bool} {ps : List Pattern}
    (hps : ∀ p ∈ ps, ∀ s e o, U.Takes R p s e o → U.Takes R' p s e o) {s e : Nat} {o : Outcome}
    (h : U.TakesAll R lead ps s e o) : U.TakesAll R' lead ps s e o := by
  induction ps generalizing lead s e o with
  | nil => rw [takesAll_nil] at h ⊢; exact h
  | cons p ps ih =>
    obtain ⟨n, m, a, b, hlead, hstop, hp, hall, rfl⟩ := takesAll_cons.1 h
    exact .cons hlead hstop (hps p List.mem_cons_self _ _ _ hp)
      (ih (fun q hq => hps q (List.mem_cons_of_mem _ hq)) hall)

/-- Every option that may be taken over a run by the one rule may be so by the other, at least for
the choices in the pattern. -/
def ImpliesOn (R R' : OptionRule) (p : Pattern) : Prop :=
  ∀ l options optional, Pattern.choice l options optional ∈ p.nodes →
    ∀ before s e, R before s e → R' before s e

theorem ImpliesOn.child {p c : Pattern} (h : ImpliesOn R R' p) (hc : c ∈ p.children) :
    ImpliesOn R R' c := fun l options optional hmem =>
  h l options optional (Pattern.mem_nodes_of_child hc hmem)

theorem Takes.mono {p : Pattern} (hR : ImpliesOn R R' p) {s e : Nat} {o : Outcome}
    (h : U.Takes R p s e o) : U.Takes R' p s e o := by
  induction p using Pattern.node_induction generalizing s e o with
  | word l literal optional => rw [takes_word] at h ⊢; exact h
  | wildcard l optional => rw [takes_wildcard] at h ⊢; exact h
  | choice l options optional ih =>
    have hrule := hR l options optional (Pattern.mem_nodes_self _)
    rcases takes_choice.1 h with ⟨before, p, after, rfl, hbefore, hp⟩ | ⟨rfl, rfl, rfl, hall⟩
    · have hmem : p ∈ before ++ p :: after := by simp
      exact .option (hrule _ _ _ hbefore) (ih p hmem (hR.child hmem) hp)
    · exact .noOption (hrule _ _ _ hall)
  | series l parts ih =>
    exact .series (TakesAll.mono_of (fun p hp _ _ _ => ih p hp (hR.child hp)) (takes_series.1 h))
  | slot l name inner kind ih =>
    obtain ⟨a, ha, rfl⟩ := takes_slot.1 h
    exact .slot (ih (hR.child (List.mem_singleton.2 rfl)) ha)
  | foreign v => exact absurd h not_takes_foreign

theorem Takes.any {p : Pattern} {s e : Nat} {o : Outcome} (h : U.Takes R p s e o) :
    U.Takes anyOption p s e o :=
  h.mono fun _ _ _ _ _ _ _ _ => trivial

theorem TakesBody.mono {parts : List Pattern} (hR : ∀ p ∈ parts, ImpliesOn R R' p) {s e : Nat}
    {o : Outcome} (h : U.TakesBody R parts s e o) : U.TakesBody R' parts s e o := by
  obtain ⟨hall, hstop⟩ := h
  exact ⟨hall.mono_of fun p hp _ _ _ => Takes.mono (hR p hp), hstop⟩

theorem TakesBody.any {parts : List Pattern} {s e : Nat} {o : Outcome}
    (h : U.TakesBody R parts s e o) : U.TakesBody anyOption parts s e o :=
  h.mono fun _ _ _ _ _ _ _ _ _ _ => trivial

/-! ### Widths and sizes -/

theorem lt_size_of_reads {pos : Nat} {key : String} (h : U.reads pos key = true) :
    pos < U.size := by
  by_contra hlt
  simp [reads, List.getElem?_eq_none (Nat.not_lt.1 hlt)] at h

theorem lt_size_of_isStop {pos : Nat} (h : U.isStop pos = true) : pos < U.size := by
  by_contra hlt
  simp [isStop, List.getElem?_eq_none (Nat.not_lt.1 hlt)] at h

theorem StopsAt.le_size {pos n : Nat} (h : U.StopsAt pos n) (hpos : pos ≤ U.size) :
    pos + n ≤ U.size := by
  cases n with
  | zero => exact hpos
  | succ n => exact lt_size_of_isStop (h n (Nat.lt_succ_self n))

theorem TakesAll.totalWidth_le_of {lead : Bool} {ps : List Pattern}
    (hps : ∀ p ∈ ps, ∀ s e o, U.Takes R p s e o → s + p.minWidth ≤ e) {s e : Nat} {o : Outcome}
    (h : U.TakesAll R lead ps s e o) : s + Pattern.totalWidth ps ≤ e := by
  induction ps generalizing lead s e o with
  | nil => rw [(takesAll_nil.1 h).1]; exact Nat.le_refl _
  | cons p ps ih =>
    obtain ⟨n, m, a, b, -, -, hp, hall, -⟩ := takesAll_cons.1 h
    have hfirst := hps p List.mem_cons_self _ _ _ hp
    have hrest := ih (fun q hq => hps q (List.mem_cons_of_mem _ hq)) hall
    rw [Pattern.totalWidth]
    omega

/-- A pattern takes no fewer tokens than its least width. -/
theorem Takes.minWidth_le {p : Pattern} {s e : Nat} {o : Outcome} (h : U.Takes R p s e o) :
    s + p.minWidth ≤ e := by
  induction p using Pattern.node_induction generalizing s e o with
  | word l literal optional =>
    rcases takes_word.1 h with ⟨-, rfl, -⟩ | ⟨rfl, rfl, -⟩
    · simp only [Pattern.minWidth]; split <;> omega
    · simp [Pattern.minWidth]
  | wildcard l optional =>
    rcases takes_wildcard.1 h with ⟨hlt, -, -⟩ | ⟨rfl, rfl, -⟩
    · simp only [Pattern.minWidth]; split <;> omega
    · simp [Pattern.minWidth]
  | choice l options optional ih =>
    rcases takes_choice.1 h with ⟨before, p, after, rfl, -, hp⟩ | ⟨rfl, rfl, -, -⟩
    · have hmem : p ∈ before ++ p :: after := by simp
      have hp := ih p hmem hp
      have hleast := Pattern.leastWidth_le hmem
      simp only [Pattern.minWidth]
      split <;> omega
    · simp [Pattern.minWidth]
  | series l parts ih =>
    exact TakesAll.totalWidth_le_of (fun p hp _ _ _ => ih p hp) (takes_series.1 h)
  | slot l name inner kind ih =>
    obtain ⟨a, ha, rfl⟩ := takes_slot.1 h
    exact ih ha
  | foreign v => exact absurd h not_takes_foreign

theorem Takes.le {p : Pattern} {s e : Nat} {o : Outcome} (h : U.Takes R p s e o) : s ≤ e :=
  Nat.le_trans (Nat.le_add_right _ _) h.minWidth_le

theorem TakesAll.totalWidth_le {lead : Bool} {ps : List Pattern} {s e : Nat} {o : Outcome}
    (h : U.TakesAll R lead ps s e o) : s + Pattern.totalWidth ps ≤ e :=
  h.totalWidth_le_of fun _ _ _ _ _ => Takes.minWidth_le

theorem TakesAll.le_size_of {lead : Bool} {ps : List Pattern}
    (hps : ∀ p ∈ ps, ∀ s e o, U.Takes R p s e o → s ≤ U.size → e ≤ U.size) {s e : Nat}
    {o : Outcome} (h : U.TakesAll R lead ps s e o) (hs : s ≤ U.size) : e ≤ U.size := by
  induction ps generalizing lead s e o with
  | nil => rw [(takesAll_nil.1 h).1]; exact hs
  | cons p ps ih =>
    obtain ⟨n, m, a, b, -, hstop, hp, hall, -⟩ := takesAll_cons.1 h
    have hm := hps p List.mem_cons_self _ _ _ hp (hstop.le_size hs)
    exact ih (fun q hq => hps q (List.mem_cons_of_mem _ hq)) hall hm

/-- A run that starts among the tokens ends among them. -/
theorem Takes.le_size {p : Pattern} {s e : Nat} {o : Outcome} (h : U.Takes R p s e o)
    (hs : s ≤ U.size) : e ≤ U.size := by
  induction p using Pattern.node_induction generalizing s e o with
  | word l literal optional =>
    rcases takes_word.1 h with ⟨hread, rfl, -⟩ | ⟨-, rfl, -⟩
    · exact lt_size_of_reads hread
    · exact hs
  | wildcard l optional =>
    rcases takes_wildcard.1 h with ⟨-, he, -⟩ | ⟨-, rfl, -⟩
    · exact he
    · exact hs
  | choice l options optional ih =>
    rcases takes_choice.1 h with ⟨before, p, after, rfl, -, hp⟩ | ⟨-, rfl, -, -⟩
    · exact ih p (by simp) hp hs
    · exact hs
  | series l parts ih =>
    exact TakesAll.le_size_of (fun p hp _ _ _ h => ih p hp h) (takes_series.1 h) hs
  | slot l name inner kind ih =>
    obtain ⟨a, ha, rfl⟩ := takes_slot.1 h
    exact ih ha hs
  | foreign v => exact absurd h not_takes_foreign

theorem TakesAll.le_size {lead : Bool} {ps : List Pattern} {s e : Nat} {o : Outcome}
    (h : U.TakesAll R lead ps s e o) (hs : s ≤ U.size) : e ≤ U.size :=
  h.le_size_of (fun _ _ _ _ _ => Takes.le_size) hs

/-! ### First options -/

/-- Of the elements of a list with a property, there is a first one. -/
theorem exists_first_with {α : Type} {P : α → Prop} {xs : List α} (h : ∃ x ∈ xs, P x) :
    ∃ before x after, xs = before ++ x :: after ∧ P x ∧ ∀ y ∈ before, ¬ P y := by
  classical
  obtain ⟨y, hy, hPy⟩ := h
  have hsome : (xs.find? fun x => decide (P x)).isSome :=
    List.find?_isSome.2 ⟨y, hy, by simpa using hPy⟩
  obtain ⟨x, hx⟩ := Option.isSome_iff_exists.1 hsome
  obtain ⟨hPx, before, after, rfl, hbefore⟩ := List.find?_eq_some_iff_append.1 hx
  exact ⟨before, x, after, rfl, by simpa using hPx, by simpa using hbefore⟩

theorem TakesAll.exists_first_of {lead : Bool} {ps : List Pattern}
    (hps : ∀ p ∈ ps, ∀ s e o, U.Takes anyOption p s e o → ∃ o', U.Takes U.firstOption p s e o')
    {s e : Nat} {o : Outcome} (h : U.TakesAll anyOption lead ps s e o) :
    ∃ o', U.TakesAll U.firstOption lead ps s e o' := by
  induction ps generalizing lead s e o with
  | nil => rw [takesAll_nil] at h; exact ⟨o, takesAll_nil.2 h⟩
  | cons p ps ih =>
    obtain ⟨n, m, a, b, hlead, hstop, hp, hall, -⟩ := takesAll_cons.1 h
    obtain ⟨a', ha'⟩ := hps p List.mem_cons_self _ _ _ hp
    obtain ⟨b', hb'⟩ := ih (fun q hq => hps q (List.mem_cons_of_mem _ hq)) hall
    exact ⟨_, .cons hlead hstop ha' hb'⟩

/-- What a pattern takes at all it takes with first options only. -/
theorem Takes.exists_first {p : Pattern} {s e : Nat} {o : Outcome}
    (h : U.Takes anyOption p s e o) : ∃ o', U.Takes U.firstOption p s e o' := by
  induction p using Pattern.node_induction generalizing s e o with
  | word l literal optional => rw [takes_word] at h; exact ⟨o, takes_word.2 h⟩
  | wildcard l optional => rw [takes_wildcard] at h; exact ⟨o, takes_wildcard.2 h⟩
  | choice l options optional ih =>
    -- the option that was taken need not be the first one to take this run
    by_cases hany : ∃ p ∈ options, ∃ o, U.Takes anyOption p s e o
    · obtain ⟨before, p, after, rfl, ⟨a, ha⟩, hbefore⟩ := exists_first_with hany
      obtain ⟨a', ha'⟩ := ih p (by simp) ha
      exact ⟨a', .option (fun q hq b hb => hbefore q hq ⟨b, hb⟩) ha'⟩
    · rcases takes_choice.1 h with ⟨before, p, after, rfl, -, hp⟩ | ⟨rfl, rfl, rfl, -⟩
      · exact absurd ⟨p, by simp, o, hp⟩ hany
      · exact ⟨.free, .noOption fun q hq b hb => hany ⟨q, hq, b, hb⟩⟩
  | series l parts ih =>
    obtain ⟨o', ho'⟩ := TakesAll.exists_first_of (fun p hp _ _ _ => ih p hp) (takes_series.1 h)
    exact ⟨o', .series ho'⟩
  | slot l name inner kind ih =>
    obtain ⟨a, ha, rfl⟩ := takes_slot.1 h
    obtain ⟨a', ha'⟩ := ih ha
    exact ⟨_, .slot ha'⟩
  | foreign v => exact absurd h not_takes_foreign

theorem TakesBody.exists_first {parts : List Pattern} {s e : Nat} {o : Outcome}
    (h : U.TakesBody anyOption parts s e o) : ∃ o', U.TakesBody U.firstOption parts s e o' := by
  obtain ⟨hall, hstop⟩ := h
  obtain ⟨a, ha⟩ := hall.exists_first_of fun _ _ _ _ _ => Takes.exists_first
  exact ⟨_, ha, hstop⟩

end Utterance

end IntentGrammar
