/-!
# Tables in order of arrival

A `Table` lists entries by name in the order in which the names first came.  Putting an entry
under a known name replaces the value and keeps the place.

`get?_put` says what a put does to every look-up, `names_put` what it does to the names;
`putAll_of_nodup` says that entries under new names are just added.
-/

namespace IntentGrammar

/-- Named entries, in the order in which their names first came. -/
abbrev Table (α : Type) := List (String × α)

namespace Table

variable {α : Type}

/-- The value under a name. -/
def get? : Table α → String → Option α
  | [], _ => none
  | (n, b) :: rest, name => if n = name then some b else get? rest name

/-- The names, in order. -/
def names (t : Table α) : List String := List.map Prod.fst t

/-- Store a value under a name, in the place of the old one if there is one. -/
def put (name : String) (a : α) : Table α → Table α
  | [] => [(name, a)]
  | (n, b) :: rest => if n = name then (n, a) :: rest else (n, b) :: put name a rest

/-- Store several entries one after the other. -/
def putAll (t : Table α) (entries : List (String × α)) : Table α :=
  entries.foldl (fun t e => put e.1 e.2 t) t

theorem get?_put (t : Table α) (name other : String) (a : α) :
    (put name a t).get? other = if name = other then some a else t.get? other := by
  induction t with
  | nil => simp [put, get?]
  | cons e t ih =>
    obtain ⟨n, b⟩ := e
    by_cases hn : n = name
    · subst hn
      by_cases ho : n = other <;> simp [put, get?, ho]
    · by_cases ho : n = other
      · subst ho
        simp [put, get?, hn, Ne.symm hn]
      · simp [put, get?, hn, ho, ih]

theorem names_put (t : Table α) (name : String) (a : α) :
    (put name a t).names = if name ∈ t.names then t.names else t.names ++ [name] := by
  induction t with
  | nil => simp [put, names]
  | cons e t ih =>
    obtain ⟨n, b⟩ := e
    simp only [names] at ih ⊢
    by_cases hn : n = name
    · subst hn
      simp [put]
    · simp only [put, hn, if_false, List.map_cons, ih, List.mem_cons, Ne.symm hn, false_or]
      split <;> simp_all

theorem mem_of_get? {t : Table α} {name : String} {a : α} (h : t.get? name = some a) :
    (name, a) ∈ t := by
  induction t with
  | nil => cases h
  | cons e t ih =>
    rw [Table.get?] at h
    split at h
    · next heq => exact List.mem_cons.2 (.inl (by rw [← heq, ← Option.some.inj h]))
    · exact List.mem_cons_of_mem _ (ih h)

theorem mem_of_mem_put {t : Table α} {name : String} {a : α} {e : String × α}
    (h : e ∈ t.put name a) : e = (name, a) ∨ e ∈ t := by
  induction t with
  | nil => exact .inl (List.mem_singleton.1 h)
  | cons e' t ih =>
    rw [Table.put] at h
    split at h
    · next heq =>
      exact (List.mem_cons.1 h).imp (fun h => h.trans (by rw [heq])) (List.mem_cons_of_mem _)
    · rcases List.mem_cons.1 h with rfl | h
      · exact .inr List.mem_cons_self
      · exact (ih h).imp_right (List.mem_cons_of_mem _)

theorem put_of_not_mem {t : Table α} {name : String} (h : name ∉ t.names) (a : α) :
    put name a t = t ++ [(name, a)] := by
  induction t with
  | nil => rfl
  | cons e t ih =>
    obtain ⟨n, b⟩ := e
    simp only [names, List.map_cons, List.mem_cons, not_or] at h
    rw [put, if_neg (Ne.symm h.1), ih h.2, List.cons_append]

/-- Entries under new names are added at the end. -/
theorem putAll_of_nodup {t : Table α} {entries : List (String × α)}
    (h : (t ++ entries : Table α).names.Nodup) : t.putAll entries = t ++ entries := by
  induction entries generalizing t with
  | nil => exact (List.append_nil t).symm
  | cons e entries ih =>
    have hnew : e.1 ∉ t.names := by
      intro hmem
      rw [names, List.map_append, List.nodup_append] at h
      exact h.2.2 _ hmem _ (List.mem_cons_self) rfl
    have hassoc : t ++ e :: entries = (t ++ [e]) ++ entries := by simp
    rw [hassoc] at h ⊢
    exact (congrArg (putAll · entries) (put_of_not_mem hnew e.2)).trans (ih h)

end Table

end IntentGrammar
