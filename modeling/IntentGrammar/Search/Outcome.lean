/-!
# Outcomes of a search

An `Outcome` says how a pattern reached an end position: how many stopwords were skipped on the
way, how many tokens went to wildcards, and which spans the slots recorded.  Outcomes are compared
by cost, skipped stopwords first.

`Ends` lists the end positions that a pattern can reach, in ascending order and with one outcome
each.  Two rules add to it: `offer` keeps the cheaper outcome, `settle` keeps the one that was
there first.
-/

namespace IntentGrammar

/-- The tokens from `start` up to, but not including, `stop` were recorded under `name`. -/
structure Span where
  name : String
  start : Nat
  stop : Nat
deriving DecidableEq, Repr

/-- How an end position was reached. -/
structure Outcome where
  /-- The number of stopwords skipped. -/
  skipped : Nat
  /-- The number of tokens taken by wildcards. -/
  wild : Nat
  /-- The recorded spans, in the order of the pattern. -/
  spans : List Span
deriving DecidableEq, Repr

namespace Outcome

/-- Nothing was skipped, taken by a wildcard, or recorded. -/
def free : Outcome := ⟨0, 0, []⟩

/-- `n` tokens were taken by a wildcard. -/
def taking (n : Nat) : Outcome := ⟨0, n, []⟩

/-- `n` stopwords were skipped. -/
def skipping (n : Nat) : Outcome := ⟨n, 0, []⟩

/-- One outcome and then the other. -/
def andThen (a b : Outcome) : Outcome :=
  ⟨a.skipped + b.skipped, a.wild + b.wild, a.spans ++ b.spans⟩

/-- `a` costs less than `b`: fewer stopwords skipped, or as many and fewer tokens wild. -/
def cheaper (a b : Outcome) : Bool :=
  a.skipped < b.skipped || (a.skipped == b.skipped && a.wild < b.wild)

@[simp] theorem free_andThen (a : Outcome) : free.andThen a = a := by
  simp [andThen, free]

@[simp] theorem andThen_free (a : Outcome) : a.andThen free = a := by
  simp [andThen, free]

theorem andThen_assoc (a b c : Outcome) : (a.andThen b).andThen c = a.andThen (b.andThen c) := by
  simp [andThen, Nat.add_assoc]

end Outcome

/-- End positions with their outcomes, in ascending order. -/
abbrev Ends := List (Nat × Outcome)

namespace Ends

/-- The outcome at a position. -/
def get? : Ends → Nat → Option Outcome
  | [], _ => none
  | (p, o) :: rest, pos => if p = pos then some o else get? rest pos

/-- Put an outcome at a position; where there is one already, `wins` decides. -/
def place (wins : Outcome → Outcome → Bool) (pos : Nat) (o : Outcome) : Ends → Ends
  | [] => [(pos, o)]
  | (p, old) :: rest =>
    if pos < p then (pos, o) :: (p, old) :: rest
    else if p = pos then (p, if wins o old then o else old) :: rest
    else (p, old) :: place wins pos o rest

/-- Put an outcome at a position unless one is there that costs no more. -/
def offer (pos : Nat) (o : Outcome) (es : Ends) : Ends := place Outcome.cheaper pos o es

/-- Put an outcome at a position unless one is there. -/
def settle (pos : Nat) (o : Outcome) (es : Ends) : Ends := place (fun _ _ => false) pos o es

/-- Record the span that leads to each end, if it is not empty. -/
def record (name : String) (start : Nat) (es : Ends) : Ends :=
  es.map fun (stop, o) =>
    (stop, if start < stop then o.andThen ⟨0, 0, [⟨name, start, stop⟩]⟩ else o)

/-- The positions ascend, so that no position occurs twice. -/
def Ascending (es : Ends) : Prop := es.Pairwise (·.1 < ·.1)

theorem get?_eq_none_of_lt {es : Ends} {pos : Nat} (h : ∀ e ∈ es, pos < e.1) :
    es.get? pos = none := by
  induction es with
  | nil => rfl
  | cons e es ih =>
    have := h e List.mem_cons_self
    simp only [get?]
    rw [if_neg (by omega)]
    exact ih fun e' he => h e' (List.mem_cons_of_mem _ he)

theorem get?_place (wins : Outcome → Outcome → Bool) {es : Ends} (h : es.Ascending) (pos p : Nat)
    (o : Outcome) :
    (es.place wins pos o).get? p =
      if p = pos then
        some (match es.get? pos with
          | none => o
          | some old => if wins o old then o else old)
      else es.get? p := by
  induction es with
  | nil => simp [place, get?, eq_comm]
  | cons e es ih =>
    obtain ⟨q, old⟩ := e
    obtain ⟨hq, hes⟩ := List.pairwise_cons.1 h
    by_cases hlt : pos < q
    · have hnone : Ends.get? ((q, old) :: es) pos = none := by
        refine get?_eq_none_of_lt fun e he => ?_
        rcases List.mem_cons.1 he with rfl | he
        · exact hlt
        · exact Nat.lt_trans hlt (hq e he)
      rw [hnone]
      simp only [place, hlt, if_true, get?, eq_comm]
    · by_cases heq : q = pos
      · subst heq
        by_cases hp : p = q
        · subst hp; simp [place, get?]
        · simp [place, get?, hp, Ne.symm hp]
      · by_cases hp : q = p
        · subst hp; simp [place, get?, hlt, heq]
        · simp only [place, hlt, if_false, heq, get?, hp]
          exact ih hes

theorem fst_of_mem_place (wins : Outcome → Outcome → Bool) {es : Ends} {pos : Nat} {o : Outcome}
    {e : Nat × Outcome} (h : e ∈ es.place wins pos o) : e.1 = pos ∨ ∃ e' ∈ es, e'.1 = e.1 := by
  induction es with
  | nil => simp only [place, List.mem_singleton] at h; exact .inl (by rw [h])
  | cons e' es ih =>
    obtain ⟨q, old⟩ := e'
    simp only [place] at h
    split at h
    · rcases List.mem_cons.1 h with rfl | h
      · exact .inl rfl
      · exact .inr ⟨e, h, rfl⟩
    · split at h
      · rcases List.mem_cons.1 h with rfl | h
        · exact .inr ⟨_, List.mem_cons_self, rfl⟩
        · exact .inr ⟨e, List.mem_cons_of_mem _ h, rfl⟩
      · rcases List.mem_cons.1 h with rfl | h
        · exact .inr ⟨_, List.mem_cons_self, rfl⟩
        · exact (ih h).imp id fun ⟨e', he', h'⟩ => ⟨e', List.mem_cons_of_mem _ he', h'⟩

theorem ascending_place (wins : Outcome → Outcome → Bool) {es : Ends} (h : es.Ascending)
    (pos : Nat) (o : Outcome) : (es.place wins pos o).Ascending := by
  induction es with
  | nil => simp [place, Ascending]
  | cons e es ih =>
    obtain ⟨q, old⟩ := e
    obtain ⟨hq, hes⟩ := List.pairwise_cons.1 h
    simp only [place]
    split
    · next hlt =>
      refine List.pairwise_cons.2 ⟨fun e he => ?_, h⟩
      rcases List.mem_cons.1 he with rfl | he
      · exact hlt
      · exact Nat.lt_trans hlt (hq e he)
    · split
      · exact List.pairwise_cons.2 ⟨hq, hes⟩
      · refine List.pairwise_cons.2 ⟨fun e he => ?_, ih hes⟩
        rcases fst_of_mem_place wins he with hpos | ⟨e', he', h'⟩
        · rw [hpos]; show q < pos; omega
        · rw [← h']; exact hq e' he'

end Ends

end IntentGrammar
