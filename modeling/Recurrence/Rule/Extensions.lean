/-!
# Extension parts

A rule keeps the parts that it does not know, each under its key and with its
value as it stands. **There is one value per key, and the entries are ordered by
key**, code point by code point, so that equal extensions are equal as lists.
-/

namespace Recurrence

/-- The parts of a rule that have no meaning here. -/
structure Extensions where
  /-- Keys and values, ordered by key. -/
  entries : List (String × String)
  /-- Each key comes before the keys that follow it. -/
  ordered : entries.Pairwise fun a b => a.1 < b.1
deriving DecidableEq

namespace Extensions

/-- No extension parts. -/
def empty : Extensions :=
  ⟨[], .nil⟩

/-- Puts a value under a key into entries ordered by key. -/
def put (key value : String) : List (String × String) → List (String × String)
  | [] => [(key, value)]
  | e :: es =>
    if key < e.1 then (key, value) :: e :: es
    else if key = e.1 then (key, value) :: es
    else e :: put key value es

/-- The keys after a value has been put under a key. -/
theorem mem_put {key value : String} {e : String × String} {es : List (String × String)}
    (h : e ∈ put key value es) : e = (key, value) ∨ e ∈ es := by
  induction es with
  | nil => simpa [put] using h
  | cons f es ih =>
    unfold put at h
    split at h
    · simpa using h
    · split at h
      · rcases List.mem_cons.1 h with h | h
        · exact .inl h
        · exact .inr (List.mem_cons_of_mem _ h)
      · rcases List.mem_cons.1 h with rfl | h
        · exact .inr List.mem_cons_self
        · exact (ih h).imp id (List.mem_cons_of_mem _)

/-- Putting a value under a key keeps the order of the keys. -/
theorem ordered_put {key value : String} {es : List (String × String)}
    (h : es.Pairwise fun a b => a.1 < b.1) :
    (put key value es).Pairwise fun a b => a.1 < b.1 := by
  induction es with
  | nil => simp [put]
  | cons e es ih =>
    rw [List.pairwise_cons] at h
    unfold put
    split
    · next hlt =>
      refine .cons (fun f hf => ?_) (List.pairwise_cons.2 h)
      rcases List.mem_cons.1 hf with rfl | hf
      · exact hlt
      · exact String.lt_trans hlt (h.1 f hf)
    · next hnlt =>
      split
      · next heq => exact .cons (fun f hf => heq ▸ h.1 f hf) h.2
      · next hne =>
        refine .cons (fun f hf => ?_) (ih h.2)
        rcases mem_put hf with rfl | hf
        · exact String.not_le.1 fun hle => hne (String.le_antisymm hle (String.not_lt.1 hnlt))
        · exact h.1 f hf

/-- What stands under a key after a value has been put under another or the same. -/
theorem lookup_put {key value k : String} {es : List (String × String)}
    (h : es.Pairwise fun a b => a.1 < b.1) :
    (put key value es).lookup k = if k = key then some value else es.lookup k := by
  induction es with
  | nil =>
    by_cases hk : k = key
    · simp [put, hk]
    · simp [put, List.lookup_cons, hk, beq_false_of_ne hk]
  | cons e es ih =>
    obtain ⟨e₁, e₂⟩ := e
    rw [List.pairwise_cons] at h
    have ih := ih h.2
    unfold put
    by_cases hk : k = key
    · subst hk
      split
      · simp
      · split
        · simp
        · next hne => simp [List.lookup_cons, beq_false_of_ne hne, ih]
    · rw [if_neg hk]
      split
      · simp [List.lookup_cons, beq_false_of_ne hk]
      · split
        · next heq =>
          subst heq
          simp [List.lookup_cons, beq_false_of_ne hk]
        · simp [List.lookup_cons, ih, hk]

/-- Sets the value under a key; **an earlier value under the key is lost.** -/
def insert (x : Extensions) (key value : String) : Extensions :=
  ⟨put key value x.entries, ordered_put x.ordered⟩

/-- The value under a key. -/
def get? (x : Extensions) (key : String) : Option String :=
  x.entries.lookup key

/-- **A key has the value that was set last.** -/
theorem get?_insert (x : Extensions) (key value k : String) :
    (x.insert key value).get? k = if k = key then some value else x.get? k :=
  lookup_put x.ordered

end Extensions

end Recurrence
