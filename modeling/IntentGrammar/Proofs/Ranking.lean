import IntentGrammar.Grammar
import IntentGrammar.Proofs.Recognition
import Mathlib.Data.List.TakeWhile

/-!
# Rankings

How the recognitions of a grammar are ranked.  Every phrase is tried on its own; what its attempt
reports depends neither on the other phrases nor on its place among them (`Grammar.trial`).  The
recognitions are ordered by score, and those of equal score by the place of their phrase: `Ranks`
says that a list holds given entries in this order, and there is one such list only
(`Ranks.eq`).  A stable sort by score makes it (`exists_ranks`).

Since the order is strict, a recognition that comes last has one place in the list, behind all
that are at least as specific (`Ranks.insert`).  So a ranking grows phrase by phrase
(`Grammar.ranked_add`), over any number of phrases added in turn (`Grammar.ranked_addAll`).

* `Grammar.ranked_exact` : **what is ranked, how it grows, and when it is given up.**
-/

namespace IntentGrammar

namespace Recognition

variable {r s t : Recognition}

theorem isWithin_iff : r.isWithin s = true ↔ toLex r.score ≤ toLex s.score := by
  rw [isWithin, Bool.not_eq_true', ← Bool.not_eq_true, Outcome.cheaper_iff, not_lt]
  rfl

theorem isWithin_trans (r s t : Recognition) (hrs : r.isWithin s = true)
    (hst : s.isWithin t = true) : r.isWithin t = true :=
  isWithin_iff.2 ((isWithin_iff.1 hrs).trans (isWithin_iff.1 hst))

theorem isWithin_total (r s : Recognition) : (r.isWithin s || s.isWithin r) = true := by
  rw [Bool.or_eq_true, isWithin_iff, isWithin_iff]
  exact le_total _ _

/-- The recognitions with one more, if there is one, behind all that are at least as specific. -/
def putInto (ms : List Recognition) : Option Recognition → List Recognition
  | none => ms
  | some r => ms.takeWhile (·.isWithin r) ++ r :: ms.dropWhile (·.isWithin r)

/-- The more specific of two recognitions; the first one, if they are equally so. -/
def better : Option Recognition → Option Recognition → Option Recognition
  | none, r => r
  | some m, none => some m
  | some m, some r => if toLex r.score < toLex m.score then some r else some m

theorem head?_putInto (ms : List Recognition) (r : Option Recognition) :
    (putInto ms r).head? = better ms.head? r := by
  cases r with
  | none => cases ms <;> rfl
  | some r =>
    cases ms with
    | nil => rfl
    | cons m ms =>
      have hiff := isWithin_iff (r := m) (s := r)
      by_cases hm : m.isWithin r = true
      · simp [putInto, better, hm, not_lt.2 (hiff.1 hm)]
      · simp [putInto, better, hm, not_le.1 (mt hiff.2 hm)]

/-- In a sorted list, all that are at least as specific stand in front. -/
theorem lt_of_mem_dropWhile {ms : List Recognition}
    (h : ms.Pairwise fun a b => toLex a.score ≤ toLex b.score) (r : Recognition) :
    ∀ m ∈ ms.dropWhile (·.isWithin r), toLex r.score < toLex m.score := by
  induction ms with
  | nil => simp
  | cons m ms ih =>
    obtain ⟨hm, hms⟩ := List.pairwise_cons.1 h
    by_cases hin : m.isWithin r = true
    · simpa [List.dropWhile_cons, hin] using ih hms
    · rw [List.dropWhile_cons_of_neg (by simpa using hin)]
      have hlt := not_le.1 (mt isWithin_iff.2 hin)
      intro m' hm'
      rcases List.mem_cons.1 hm' with rfl | hm'
      · exact hlt
      · exact hlt.trans_le (hm m' hm')

/-- In a sorted list a recognition has one place, behind all that are at least as specific. -/
theorem exists_putInto_eq {ms : List Recognition}
    (h : ms.Pairwise fun a b => toLex a.score ≤ toLex b.score) (result : Option Recognition) :
    ∃ front back, ms = front ++ back ∧ putInto ms result = front ++ result.toList ++ back ∧
      ∀ r ∈ result, (∀ m ∈ front, toLex m.score ≤ toLex r.score) ∧
        ∀ m ∈ back, toLex r.score < toLex m.score := by
  cases result with
  | none => exact ⟨ms, [], by simp, by simp [putInto], by simp⟩
  | some r =>
    refine ⟨ms.takeWhile (·.isWithin r), ms.dropWhile (·.isWithin r),
      List.takeWhile_append_dropWhile.symm, by simp [putInto], ?_⟩
    rintro _ ⟨⟩
    refine ⟨fun m hm => ?_, lt_of_mem_dropWhile h r⟩
    have hin := List.mem_takeWhile_imp hm
    exact isWithin_iff.1 hin

end Recognition

open Recognition

/-! ### Rankings of entries -/

/-- A recognition and the place of its phrase. -/
abbrev Placed := Nat × Recognition

/-- Entries are ordered by score, and those of equal score by place. -/
def rank (e : Placed) : (Nat ×ₗ Nat) ×ₗ Nat := toLex (toLex e.2.score, e.1)

/-- The ranking holds just the entries, in strict order. -/
structure Ranks (entries ranking : List Placed) : Prop where
  perm : ranking.Perm entries
  sorted : ranking.Pairwise fun a b => rank a < rank b

section

variable {entries ranking : List Placed} {a b e : Placed}

theorem rank_lt_of_lt (h : toLex a.2.score < toLex b.2.score) : rank a < rank b :=
  Prod.Lex.toLex_lt_toLex.2 (.inl h)

theorem rank_lt_of_le (h : toLex a.2.score ≤ toLex b.2.score) (hplace : a.1 < b.1) :
    rank a < rank b :=
  Prod.Lex.toLex_lt_toLex.2 (h.lt_or_eq.imp_right fun heq => ⟨heq, hplace⟩)

theorem score_le_of_rank_lt (h : rank a < rank b) : toLex a.2.score ≤ toLex b.2.score :=
  (Prod.Lex.toLex_lt_toLex.1 h).elim le_of_lt fun h => h.1.le

namespace Ranks

/-- There is one ranking of some entries only. -/
theorem eq {ranking' : List Placed} (h : Ranks entries ranking) (h' : Ranks entries ranking') :
    ranking = ranking' :=
  (h.perm.trans h'.perm.symm).eq_of_pairwise (fun _ _ _ _ hab hba => absurd hab (lt_asymm hba))
    h.sorted h'.sorted

theorem scores (h : Ranks entries ranking) :
    (ranking.map Prod.snd).Pairwise fun r s => toLex r.score ≤ toLex s.score :=
  List.pairwise_map.2 (h.sorted.imp score_le_of_rank_lt)

/-- An entry may go wherever those in front of it come first and those behind it come later. -/
theorem insert {front back : List Placed} (h : Ranks entries (front ++ back))
    (hfront : ∀ a ∈ front, rank a < rank e) (hback : ∀ b ∈ back, rank e < rank b) :
    Ranks (e :: entries) (front ++ e :: back) where
  perm := List.perm_middle.trans (h.perm.cons e)
  sorted := by
    obtain ⟨hf, hb, hfb⟩ := List.pairwise_append.1 h.sorted
    refine List.pairwise_append.2 ⟨hf, List.pairwise_cons.2 ⟨hback, hb⟩, fun a ha b hb => ?_⟩
    rcases List.mem_cons.1 hb with rfl | hb
    · exact hfront a ha
    · exact hfb a ha b hb

/-- An entry with a later place than all others goes behind those that are at least as specific. -/
theorem insert_last (h : Ranks entries ranking) (hlast : ∀ a ∈ entries, a.1 < e.1) :
    ∃ ranking', Ranks (entries ++ [e]) ranking' ∧
      ranking'.map Prod.snd = putInto (ranking.map Prod.snd) (some e.2) := by
  have hsplit := List.takeWhile_append_dropWhile (p := fun a : Placed => a.2.isWithin e.2)
    (l := ranking)
  have hback := lt_of_mem_dropWhile h.scores e.2
  rw [List.dropWhile_map] at hback
  have hranks : Ranks (e :: entries) (ranking.takeWhile (fun a => a.2.isWithin e.2) ++
      e :: ranking.dropWhile fun a => a.2.isWithin e.2) := by
    refine insert (hsplit.symm ▸ h) (fun a ha => ?_) (fun b hb => ?_)
    · have hin := List.mem_takeWhile_imp ha
      have hmem := h.perm.mem_iff.1 ((List.takeWhile_prefix _).subset ha)
      exact rank_lt_of_le (isWithin_iff.1 hin) (hlast a hmem)
    · exact rank_lt_of_lt (hback b.2 (List.mem_map_of_mem hb))
  refine ⟨_, ⟨hranks.perm.trans (List.perm_append_singleton e entries).symm, hranks.sorted⟩, ?_⟩
  rw [putInto, List.takeWhile_map, List.dropWhile_map]
  simp [Function.comp_def]

end Ranks

/-- A stable sort by score ranks entries that come in the order of their places. -/
theorem exists_ranks (h : entries.Pairwise (·.1 < ·.1)) :
    ∃ ranking, Ranks entries ranking ∧
      ranking.map Prod.snd = (entries.map Prod.snd).mergeSort isWithin := by
  induction entries with
  | nil => exact ⟨[], ⟨.refl _, .nil⟩, by simp⟩
  | cons e entries ih =>
    obtain ⟨hplace, hentries⟩ := List.pairwise_cons.1 h
    obtain ⟨ranking, hranks, heq⟩ := ih hentries
    obtain ⟨front, back, hcons, happend, hfront⟩ :=
      List.mergeSort_cons isWithin_trans isWithin_total e.2 (entries.map Prod.snd)
    have hsorted := List.pairwise_mergeSort isWithin_trans isWithin_total
      (e.2 :: entries.map Prod.snd)
    rw [hcons] at hsorted
    obtain ⟨-, hbehind, -⟩ := List.pairwise_append.1 hsorted
    obtain ⟨rfront, rback, rfl, rfl, rfl⟩ := List.map_eq_append_iff.1 (heq.trans happend)
    refine ⟨rfront ++ e :: rback, hranks.insert (fun a ha => ?_) (fun b hb => ?_), ?_⟩
    · -- those in front are there because they are more specific
      have hnot := hfront a.2 (List.mem_map_of_mem ha)
      rw [Bool.not_eq_true', ← Bool.not_eq_true, isWithin_iff] at hnot
      exact rank_lt_of_lt (not_le.1 hnot)
    · have hin := (List.pairwise_cons.1 hbehind).1 b.2 (List.mem_map_of_mem hb)
      have hmem := hranks.perm.mem_iff.1 (List.mem_append_right _ hb)
      exact rank_lt_of_le (isWithin_iff.1 hin) (hplace b hmem)
    · simp [hcons]

end

/-! ### Attempts of all phrases -/

section

variable {ε α β : Type} {f : α → Except ε β}

theorem mapM_eq_ok {g : α → β} {xs : List α} (h : ∀ x ∈ xs, f x = .ok (g x)) :
    xs.mapM f = .ok (xs.map g) := by
  induction xs with
  | nil => rfl
  | cons x xs ih =>
    rw [List.mapM_cons, h x List.mem_cons_self, ih fun y hy => h y (List.mem_cons_of_mem _ hy)]
    rfl

/-- The first error breaks a row of attempts off. -/
theorem mapM_eq_first {before after : List α} {x : α} {e : ε} {g : α → β}
    (h : ∀ y ∈ before, f y = .ok (g y)) (hx : f x = .error e) :
    (before ++ x :: after).mapM f = .error e := by
  rw [List.mapM_append, mapM_eq_ok h, List.mapM_cons, hx]
  rfl

end

/-- The budget was exceeded. -/
def Exhausted {α : Type} (result : Except AttemptFault α) : Prop :=
  ∃ spent limit source, result = .error (.exhausted spent limit source)

namespace Grammar

variable (G : Grammar) (u : String)

/-- All phrases were built from patterns. -/
def WellFormed : Prop := ∀ P ∈ G.phrases, ∃ parts, P.WellFormed parts

/-- The attempt of one phrase, with a budget of its own. -/
def trial (P : Phrase) : Except AttemptFault (Option Recognition) :=
  (P.recognise G.lexicon (Token.tokenize u) (some u) ⟨G.settings.maxSteps, 0⟩).1

/-- What one phrase recognises. -/
def verdict (P : Phrase) : Option Recognition := (G.trial u P).toOption.join

/-- Add several phrases, one after the other. -/
def addAll (Ps : List Phrase) : Grammar := Ps.foldl add G

/-- The recognitions of some phrases with the places of these. -/
def entries (Ps : List Phrase) : List Placed :=
  Ps.zipIdx.filterMap fun (P, i) => (G.verdict u P).map (i, ·)

/-- The recognitions of some phrases, the most specific first. -/
def ranking (Ps : List Phrase) : List Recognition :=
  (Ps.filterMap (G.verdict u)).mergeSort isWithin

variable {G u} {P : Phrase} {Ps : List Phrase}

theorem wellFormed_addAll (hG : G.WellFormed) (hPs : ∀ P ∈ Ps, ∃ parts, P.WellFormed parts) :
    (G.addAll Ps).WellFormed := by
  induction Ps generalizing G with
  | nil => exact hG
  | cons P Ps ih =>
    obtain ⟨hP, hPs⟩ := List.forall_mem_cons.1 hPs
    refine ih (fun Q hQ => ?_) hPs
    rcases List.mem_append.1 hQ with hQ | hQ
    · exact hG Q hQ
    · exact List.mem_singleton.1 hQ ▸ hP

theorem verdict_eq {result : Option Recognition} (h : G.trial u P = .ok result) :
    G.verdict u P = result := by
  rw [verdict, h]
  rfl

/-- An attempt within its budget comes to a verdict. -/
theorem trial_eq (hP : ∃ parts, P.WellFormed parts) (h : ¬ Exhausted (G.trial u P)) :
    G.trial u P = .ok (G.verdict u P) := by
  obtain ⟨parts, hP⟩ := hP
  have heq := congrArg Prod.fst (Phrase.recognise_eq (U := ⟨Token.tokenize u, G.lexicon⟩) hP h)
  rw [verdict, trial, heq]
  rfl

/-! ### Growing rankings -/

theorem entries_concat :
    G.entries u (Ps ++ [P]) = G.entries u Ps ++ ((G.verdict u P).map (Ps.length, ·)).toList := by
  simp only [entries, List.zipIdx_append, List.filterMap_append]
  cases h : G.verdict u P <;> simp [h]

theorem mem_entries {i : Nat} {r : Recognition} :
    (i, r) ∈ G.entries u Ps ↔ ∃ P, Ps[i]? = some P ∧ G.verdict u P = some r := by
  simp [entries, List.mk_mem_zipIdx_iff_getElem?]

theorem lt_length_of_mem_entries {a : Placed} (h : a ∈ G.entries u Ps) : a.1 < Ps.length := by
  obtain ⟨P, hP, -⟩ := mem_entries.1 h
  exact (List.getElem?_eq_some_iff.1 hP).1

theorem entries_pairwise : (G.entries u Ps).Pairwise (·.1 < ·.1) := by
  induction Ps using List.reverseRecOn with
  | nil => exact .nil
  | append_singleton Ps P ih =>
    rw [entries_concat, List.pairwise_append]
    refine ⟨ih, ?_, fun a ha b hb => ?_⟩
    · cases G.verdict u P <;> simp
    · obtain ⟨r, -, rfl⟩ := Option.map_eq_some_iff.1 (Option.mem_toList.1 hb)
      exact lt_length_of_mem_entries ha

theorem map_entries : (G.entries u Ps).map Prod.snd = Ps.filterMap (G.verdict u) := by
  induction Ps using List.reverseRecOn with
  | nil => rfl
  | append_singleton Ps P ih =>
    rw [entries_concat, List.map_append, ih, List.filterMap_append]
    cases h : G.verdict u P <;> simp [h]

variable (G u) in
theorem exists_ranks_ranking (Ps : List Phrase) :
    ∃ ms, Ranks (G.entries u Ps) ms ∧ ms.map Prod.snd = G.ranking u Ps := by
  rw [ranking, ← map_entries]
  exact exists_ranks entries_pairwise

/-- One more phrase: what it recognises is put into the ranking. -/
theorem ranking_concat :
    G.ranking u (Ps ++ [P]) = putInto (G.ranking u Ps) (G.verdict u P) := by
  cases h : G.verdict u P with
  | none => simp [ranking, putInto, h]
  | some r =>
    obtain ⟨ms, hms, heq⟩ := exists_ranks_ranking G u Ps
    obtain ⟨ms', hms', heq'⟩ := exists_ranks_ranking G u (Ps ++ [P])
    obtain ⟨ms'', hms'', heq''⟩ :=
      hms.insert_last (e := (Ps.length, r)) fun _ => lt_length_of_mem_entries
    rw [entries_concat, h] at hms'
    rw [← heq', hms'.eq hms'', heq'', heq]

/-- More phrases, one after the other. -/
theorem ranking_append (Qs : List Phrase) :
    G.ranking u (Ps ++ Qs) = (Qs.map (G.verdict u)).foldl putInto (G.ranking u Ps) := by
  induction Qs generalizing Ps with
  | nil => simp
  | cons Q Qs ih =>
    rw [List.append_cons, ih, ranking_concat]
    rfl

/-- The order of the phrases matters among those of equal score only. -/
theorem scores_ranking_perm {Qs : List Phrase} (h : Ps.Perm Qs) :
    (G.ranking u Ps).Perm (G.ranking u Qs) ∧
      (G.ranking u Ps).map score = (G.ranking u Qs).map score := by
  have hperm : (G.ranking u Ps).Perm (G.ranking u Qs) :=
    (List.mergeSort_perm _ _).trans
      ((h.filterMap _).trans (List.mergeSort_perm _ _).symm)
  have hsorted : ∀ Ps, ((G.ranking u Ps).map score).Pairwise fun c d => toLex c ≤ toLex d := by
    intro Ps
    obtain ⟨ms, hms, heq⟩ := exists_ranks_ranking G u Ps
    exact List.pairwise_map.2 (heq ▸ hms.scores)
  exact ⟨hperm, (hperm.map score).eq_of_pairwise
    (fun _ _ _ _ hab hba => toLex_inj.1 (le_antisymm hab hba)) (hsorted Ps) (hsorted Qs)⟩

/-! ### Whole runs -/

/-- Without a phrase that exceeds its budget, the ranking is reported. -/
theorem ranked_eq (hG : G.WellFormed) (h : ∀ P ∈ G.phrases, ¬ Exhausted (G.trial u P)) :
    G.ranked u = .ok (G.ranking u G.phrases) := by
  have hall : G.phrases.mapM (G.trial u) = .ok (G.phrases.map (G.verdict u)) :=
    mapM_eq_ok fun P hP => trial_eq (hG P hP) (h P hP)
  have hattempts : G.attempts u = (G.phrases.mapM (G.trial u)).map (·.filterMap id) := rfl
  rw [ranked, hattempts, hall]
  simp [Except.map, ranking, List.filterMap_map]

/-- The first phrase that exceeds its budget decides what is reported. -/
theorem ranked_eq_first (hG : G.WellFormed) {before after : List Phrase} {e : AttemptFault}
    (hsplit : G.phrases = before ++ P :: after)
    (hbefore : ∀ Q ∈ before, ¬ Exhausted (G.trial u Q)) (hP : G.trial u P = .error e) :
    G.ranked u = .error e := by
  have hmem : ∀ Q ∈ before, Q ∈ G.phrases := fun Q hQ => hsplit ▸ List.mem_append_left _ hQ
  have hall : G.phrases.mapM (G.trial u) = .error e :=
    hsplit ▸ mapM_eq_first (fun Q hQ => trial_eq (hG Q (hmem Q hQ)) (hbefore Q hQ)) hP
  have hattempts : G.attempts u = (G.phrases.mapM (G.trial u)).map (·.filterMap id) := rfl
  rw [ranked, hattempts, hall]
  rfl

theorem best_eq_ok {ms : List Recognition} (h : G.ranked u = .ok ms) : G.best u = .ok ms.head? := by
  rw [best, h]
  rfl

theorem best_eq_error {e : AttemptFault} (h : G.ranked u = .error e) : G.best u = .error e := by
  rw [best, h]
  rfl

variable (G u) in
/-- The ranking is reported: it holds the recognitions of all phrases by themselves, each with the
place of its phrase, and stands in strict order. -/
structure ReportsAs (placed : List Placed) : Prop where
  ranked_eq : G.ranked u = .ok (placed.map Prod.snd)
  best_eq : G.best u = .ok (placed.map Prod.snd).head?
  sorted : placed.Pairwise fun a b => rank a < rank b
  mem_iff : ∀ i r, (i, r) ∈ placed ↔ ∃ P, G.phrases[i]? = some P ∧ G.trial u P = .ok (some r)

theorem exists_reportsAs (hG : G.WellFormed)
    (h : ∀ P ∈ G.phrases, ¬ Exhausted (G.trial u P)) : ∃ placed, G.ReportsAs u placed := by
  obtain ⟨ms, hms, heq⟩ := exists_ranks_ranking G u G.phrases
  have hranked : G.ranked u = .ok (ms.map Prod.snd) := heq ▸ ranked_eq hG h
  refine ⟨ms, hranked, best_eq_ok hranked, hms.sorted, fun i r => ?_⟩
  rw [hms.perm.mem_iff, mem_entries]
  refine exists_congr fun P => and_congr_right fun hP => ?_
  have hmem := List.mem_of_getElem? hP
  rw [trial_eq (hG P hmem) (h P hmem), Except.ok.injEq]

/-- What one more phrase recognises goes behind all that are at least as specific, and in front of
the others. -/
theorem ranked_add (hG : G.WellFormed) (h : ∀ P ∈ G.phrases, ¬ Exhausted (G.trial u P))
    (hP : ∃ parts, P.WellFormed parts) {result : Option Recognition}
    (hresult : G.trial u P = .ok result) :
    ∃ front back, G.ranked u = .ok (front ++ back) ∧
      (G.add P).ranked u = .ok (front ++ result.toList ++ back) ∧
      (G.add P).best u = .ok (better (front ++ back).head? result) ∧
      ∀ r ∈ result, (∀ m ∈ front, toLex m.score ≤ toLex r.score) ∧
        ∀ m ∈ back, toLex r.score < toLex m.score := by
  have hadd : (G.add P).ranked u = .ok (putInto (G.ranking u G.phrases) result) := by
    have hwell : (G.addAll [P]).WellFormed :=
      wellFormed_addAll hG (List.forall_mem_singleton.2 hP)
    rw [← verdict_eq hresult, ← ranking_concat]
    refine ranked_eq hwell fun Q hQ => ?_
    rcases List.mem_append.1 hQ with hQ | hQ
    · exact h Q hQ
    · rintro ⟨spent, limit, source, herror⟩
      cases List.mem_singleton.1 hQ
      cases hresult.symm.trans herror
  have hbest := best_eq_ok hadd
  obtain ⟨ms, hms, heq⟩ := exists_ranks_ranking G u G.phrases
  obtain ⟨front, back, hsplit, hput, hplace⟩ := exists_putInto_eq hms.scores result
  rw [heq] at hsplit hput
  rw [head?_putInto, hsplit] at hbest
  exact ⟨front, back, hsplit ▸ ranked_eq hG h, hput ▸ hadd, hbest, hplace⟩

/-- Phrases that are added in turn are put into the ranking in turn. -/
theorem ranked_addAll (hG : G.WellFormed) (h : ∀ P ∈ G.phrases, ¬ Exhausted (G.trial u P))
    (hPs : ∀ P ∈ Ps, (∃ parts, P.WellFormed parts) ∧ ¬ Exhausted (G.trial u P)) :
    ∃ ms, G.ranked u = .ok ms ∧
      (G.addAll Ps).ranked u = .ok ((Ps.map (G.verdict u)).foldl putInto ms) := by
  have hadd : G.addAll Ps = { G with phrases := G.phrases ++ Ps } := by
    clear hG h hPs
    induction Ps generalizing G with
    | nil => simp [addAll]
    | cons P Ps ih => exact (ih (G := G.add P)).trans (by simp [add])
  have hwell := wellFormed_addAll hG fun P hP => (hPs P hP).1
  refine ⟨_, ranked_eq hG h, ?_⟩
  rw [hadd] at hwell ⊢
  rw [← ranking_append]
  refine ranked_eq hwell fun P hP => ?_
  rcases List.mem_append.1 hP with hP | hP
  · exact h P hP
  · exact (hPs P hP).2

/-- Phrases in another order: only recognitions of equal score change places. -/
theorem ranked_perm (hG : G.WellFormed) (h : ∀ P ∈ G.phrases, ¬ Exhausted (G.trial u P))
    (hperm : Ps.Perm G.phrases) :
    ∃ ms ms', G.ranked u = .ok ms ∧ { G with phrases := Ps }.ranked u = .ok ms' ∧
      ms'.Perm ms ∧ ms'.map score = ms.map score :=
  ⟨_, _, ranked_eq hG h,
    ranked_eq (G := { G with phrases := Ps }) (fun P hP => hG P (hperm.mem_iff.1 hP))
      (fun P hP => h P (hperm.mem_iff.1 hP)),
    scores_ranking_perm hperm⟩

theorem exhausted_iff (hG : G.WellFormed) :
    (Exhausted (G.ranked u) ↔ ∃ P ∈ G.phrases, Exhausted (G.trial u P)) ∧
      (Exhausted (G.best u) ↔ ∃ P ∈ G.phrases, Exhausted (G.trial u P)) := by
  by_cases hall : ∃ P ∈ G.phrases, Exhausted (G.trial u P)
  · obtain ⟨before, P, after, hsplit, hP, hbefore⟩ := Utterance.exists_first_with hall
    obtain ⟨spent, limit, source, he⟩ := hP
    have hranked := ranked_eq_first hG hsplit hbefore he
    exact ⟨iff_of_true ⟨spent, limit, source, hranked⟩ hall,
      iff_of_true ⟨spent, limit, source, best_eq_error hranked⟩ hall⟩
  · have hranked := ranked_eq hG fun P hP hex => hall ⟨P, hP, hex⟩
    refine ⟨iff_of_false ?_ hall, iff_of_false ?_ hall⟩
    · rintro ⟨spent, limit, source, he⟩
      cases hranked.symm.trans he
    · rintro ⟨spent, limit, source, he⟩
      cases (best_eq_ok hranked).symm.trans he

/-- **What is ranked, how it grows, and when it is given up.**  If no phrase exceeds its budget, the
recognitions of all phrases are reported in the order of their scores and places; a phrase that is
added changes nothing but that its recognition is put behind those that are at least as specific;
and the order of the phrases matters among recognitions of equal score only.  A phrase that exceeds
its budget breaks everything off, the first such phrase deciding what is reported. -/
theorem ranked_exact (hG : G.WellFormed) (u : String) :
    ((∀ P ∈ G.phrases, ¬ Exhausted (G.trial u P)) →
      (∃ placed, G.ReportsAs u placed) ∧
      (∀ P result, (∃ parts, P.WellFormed parts) → G.trial u P = .ok result →
        ∃ front back, G.ranked u = .ok (front ++ back) ∧
          (G.add P).ranked u = .ok (front ++ result.toList ++ back) ∧
          (G.add P).best u = .ok (better (front ++ back).head? result) ∧
          ∀ r ∈ result, (∀ m ∈ front, toLex m.score ≤ toLex r.score) ∧
            ∀ m ∈ back, toLex r.score < toLex m.score) ∧
      (∀ Ps, (∀ P ∈ Ps, (∃ parts, P.WellFormed parts) ∧ ¬ Exhausted (G.trial u P)) →
        ∃ ms, G.ranked u = .ok ms ∧
          (G.addAll Ps).ranked u = .ok ((Ps.map (G.verdict u)).foldl putInto ms)) ∧
      ∀ Ps : List Phrase, Ps.Perm G.phrases →
        ∃ ms ms', G.ranked u = .ok ms ∧ { G with phrases := Ps }.ranked u = .ok ms' ∧
          ms'.Perm ms ∧ ms'.map score = ms.map score) ∧
    (Exhausted (G.ranked u) ↔ ∃ P ∈ G.phrases, Exhausted (G.trial u P)) ∧
    (Exhausted (G.best u) ↔ ∃ P ∈ G.phrases, Exhausted (G.trial u P)) ∧
    ∀ before P after e, G.phrases = before ++ P :: after →
      (∀ Q ∈ before, ¬ Exhausted (G.trial u Q)) → G.trial u P = .error e →
        G.ranked u = .error e ∧ G.best u = .error e := by
  obtain ⟨hranked, hbest⟩ := exhausted_iff (u := u) hG
  refine ⟨fun h => ⟨exists_reportsAs hG h, fun P result hP hresult => ranked_add hG h hP hresult,
    fun Ps hPs => ranked_addAll hG h hPs, fun Ps hperm => ranked_perm hG h hperm⟩,
    hranked, hbest, fun before P after e hsplit hbefore he => ?_⟩
  have hfirst := ranked_eq_first hG hsplit hbefore he
  exact ⟨hfirst, best_eq_error hfirst⟩

/-- Whatever is said is recognised by the phrase `*`, which skips nothing. -/
def anything : Phrase := ⟨.series 0 [.wildcard 1 false], none, [], "*"⟩

theorem wellFormed_anything : anything.WellFormed [.wildcard 1 false] where
  body_eq := ⟨0, rfl⟩
  isLabelled := Pattern.isLabelled_of_nodup (by decide)
  firstForeign?_eq := by decide

/-- A grammar of one phrase. -/
def single : Grammar := ⟨[.setting], .english, .default⟩

/-- To a phrase that skips a stopword, one that skips none is added, and then the first one again:
it goes behind its equal. -/
theorem ranked_setting_twice :
    ∃ r s, r.score = (1, 1) ∧ s.score = (0, 4) ∧
      (single.addAll [anything, .setting]).ranked "please set red now" = .ok [s, r, r] := by
  obtain ⟨r, hr, hro⟩ : ∃ r : Recognition,
      single.trial "please set red now" .setting = .ok (some r) ∧
        r.outcome = ⟨1, 1, [⟨"color", 2, 3⟩]⟩ := Phrase.exists_recognition (by decide +kernel)
  obtain ⟨s, hs, hso⟩ : ∃ s : Recognition,
      single.trial "please set red now" anything = .ok (some s) ∧ s.outcome = ⟨0, 4, []⟩ :=
    Phrase.exists_recognition (by decide +kernel)
  have hrscore : r.score = (1, 1) := by rw [score, hro]
  have hsscore : s.score = (0, 4) := by rw [score, hso]
  have hvr := verdict_eq hr
  have hvs := verdict_eq hs
  have hnr : ¬ Exhausted (single.trial "please set red now" .setting) := by simp [hr, Exhausted]
  have hns : ¬ Exhausted (single.trial "please set red now" anything) := by simp [hs, Exhausted]
  have hsingle : single.WellFormed := by
    simpa [WellFormed, single] using ⟨_, Phrase.wellFormed_setting⟩
  have hall : ∀ P ∈ single.phrases, ¬ Exhausted (single.trial "please set red now" P) := by
    simpa [single] using hnr
  obtain ⟨-, -, hadd, -⟩ := (ranked_exact hsingle "please set red now").1 hall
  obtain ⟨ms, hms, hadded⟩ := hadd [anything, .setting] (by
    simpa using ⟨⟨⟨_, wellFormed_anything⟩, hns⟩, ⟨_, Phrase.wellFormed_setting⟩, hnr⟩)
  have hone : single.ranked "please set red now" = .ok [r] := by
    have hphrases : single.phrases = [.setting] := rfl
    rw [ranked_eq hsingle hall, hphrases]
    simp [ranking, hvr]
  cases hone.symm.trans hms
  refine ⟨r, s, hrscore, hsscore, hadded.trans ?_⟩
  have hsr : r.isWithin s = false := by
    rw [← Bool.not_eq_true, isWithin_iff, hrscore, hsscore]
    decide
  have hrr : r.isWithin r = true := isWithin_iff.2 le_rfl
  have hrs : s.isWithin r = true := by
    rw [isWithin_iff, hrscore, hsscore]
    decide
  simp [hvr, hvs, putInto, hsr, hrr, hrs]

end Grammar

end IntentGrammar
