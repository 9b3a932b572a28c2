import Mathlib

/-!
# Self-delimiting encodings

An encoding is self-delimiting when a reader can tell where each encoded value ends:
whatever follows, two texts that start with encoded values and agree as a whole agree
on the value and on what follows it. The lemmas build such encodings up from smaller
ones: a run closed by a symbol it does not hold, a character code closed by a symbol
that starts no character, and a separated list between brackets.
-/

namespace Wire

variable {α σ : Type*}

/-- Whatever follows it, an encoded value can be read off the front of a text in one way. -/
def Delimited (encode : α → List σ) : Prop :=
  ∀ ⦃x y : α⦄ ⦃r s : List σ⦄, encode x ++ r = encode y ++ s → x = y ∧ r = s

/-- No encoded value starts with `z`. -/
def Avoids (encode : α → List σ) (z : σ) : Prop :=
  ∀ x r s, encode x ++ r ≠ z :: s

/-- A self-delimiting encoding is injective. -/
theorem Delimited.injective {encode : α → List σ} (h : Delimited encode) :
    Function.Injective encode := fun x y hxy =>
  (h (r := []) (s := []) (by simpa using hxy)).1

/-- A sequence of encoded values that are not empty can be read in one way. -/
theorem Delimited.flatMap_injective {encode : α → List σ} (h : Delimited encode)
    (hne : ∀ x, encode x ≠ []) : Function.Injective fun xs : List α => xs.flatMap encode := by
  intro xs ys heq
  induction xs generalizing ys with
  | nil =>
      cases ys with
      | nil => rfl
      | cons y ys => exact absurd (List.append_eq_nil_iff.mp heq.symm).1 (hne y)
  | cons x xs ih =>
      cases ys with
      | nil => exact absurd (List.append_eq_nil_iff.mp heq).1 (hne x)
      | cons y ys =>
          obtain ⟨rfl, hrest⟩ := h heq
          rw [ih hrest]

/-- A run without `z` ends at the first `z`. -/
theorem append_cons_inj {z : σ} {s t r u : List σ} (hs : z ∉ s) (ht : z ∉ t)
    (h : s ++ z :: r = t ++ z :: u) : s = t ∧ r = u := by
  induction s generalizing t with
  | nil =>
      cases t with
      | nil => exact ⟨rfl, (List.cons.inj h).2⟩
      | cons b t => exact absurd ((List.cons.inj h).1 ▸ List.mem_cons_self) ht
  | cons a s ih =>
      cases t with
      | nil => exact absurd ((List.cons.inj h).1 ▸ List.mem_cons_self) hs
      | cons b t =>
          obtain ⟨hhead, htail⟩ := List.cons.inj h
          obtain ⟨hst, hru⟩ := ih (fun hm => hs (List.mem_cons_of_mem _ hm))
            (fun hm => ht (List.mem_cons_of_mem _ hm)) htail
          exact ⟨by rw [hhead, hst], hru⟩

/-- A symbol that occurs once splits a text in one way only. -/
theorem append_cons_inj_of_once {z : σ} {s t r u : List σ} (hs : z ∉ s) (hr : z ∉ r)
    (h : s ++ z :: r = t ++ z :: u) : s = t ∧ r = u := by
  classical
  have hcount : (s ++ z :: r).count z = (t ++ z :: u).count z := congrArg (List.count z) h
  simp only [List.count_append, List.count_cons_self, List.count_eq_zero.mpr hs,
    List.count_eq_zero.mpr hr] at hcount
  have ht : z ∉ t := List.count_eq_zero.mp (by omega)
  exact append_cons_inj hs ht h

/-- An injective encoding into texts of one length is self-delimiting. -/
theorem delimited_of_length {encode : α → List σ} {n : Nat}
    (hinj : Function.Injective encode) (hlen : ∀ x, (encode x).length = n) :
    Delimited encode := by
  intro x y r s h
  obtain ⟨hxy, hrs⟩ := List.append_inj h (by rw [hlen, hlen])
  exact ⟨hinj hxy, hrs⟩

/-- Strings written character by character, then closed by a symbol that starts no character. -/
theorem delimited_flatMap {code : α → List σ} {z : σ} (hcode : Delimited code)
    (hz : Avoids code z) : Delimited fun x : List α => x.flatMap code ++ [z] := by
  intro x y r s h
  simp only [List.append_assoc, List.singleton_append] at h
  induction x generalizing y with
  | nil =>
      cases y with
      | nil => exact ⟨rfl, (List.cons.inj h).2⟩
      | cons b y => exact absurd (by simpa using h.symm) (hz b (y.flatMap code ++ z :: s) r)
  | cons a x ih =>
      cases y with
      | nil => exact absurd (by simpa using h) (hz a (x.flatMap code ++ z :: r) s)
      | cons b y =>
          simp only [List.flatMap_cons, List.append_assoc] at h
          obtain ⟨hab, htail⟩ := hcode h
          obtain ⟨hxy, hrs⟩ := ih htail
          exact ⟨by rw [hab, hxy], hrs⟩

/-- Values one after the other with `sep` between neighbours. -/
def separated (item : α → List σ) (sep : σ) : List α → List σ
  | [] => []
  | [x] => item x
  | x :: y :: rest => item x ++ sep :: separated item sep (y :: rest)

/-- One item more. -/
theorem separated_cons (item : α → List σ) (sep : σ) (x : α) (xs : List α) :
    separated item sep (x :: xs) =
      item x ++ ((if xs.isEmpty then [] else [sep]) ++ separated item sep xs) := by
  cases xs with
  | nil => simp [separated]
  | cons y rest => simp [separated]

/-- The symbols of an item stand in the separated list. -/
theorem mem_separated {item : α → List σ} {sep : σ} {xs : List α} {x : α} {b : σ} (hx : x ∈ xs)
    (hb : b ∈ item x) : b ∈ separated item sep xs := by
  induction xs with
  | nil => exact absurd hx List.not_mem_nil
  | cons y ys ih =>
      rw [separated_cons]
      rcases List.mem_cons.mp hx with rfl | hx
      · exact List.mem_append_left _ hb
      · exact List.mem_append_right _ (List.mem_append_right _ (ih hx))

/-- A symbol of a separated list is the separator or stands in an item. -/
theorem of_mem_separated {item : α → List σ} {sep : σ} {xs : List α} {b : σ}
    (h : b ∈ separated item sep xs) : b = sep ∨ ∃ x ∈ xs, b ∈ item x := by
  induction xs with
  | nil => exact absurd h List.not_mem_nil
  | cons x xs ih =>
      rw [separated_cons] at h
      rcases List.mem_append.mp h with h | h
      · exact .inr ⟨x, List.mem_cons_self, h⟩
      · rcases List.mem_append.mp h with h | h
        · cases xs with
          | nil => exact absurd h List.not_mem_nil
          | cons y ys => exact .inl (List.mem_singleton.mp h)
        · rcases ih h with h | ⟨y, hy, hb⟩
          · exact .inl h
          · exact .inr ⟨y, List.mem_cons_of_mem _ hy, hb⟩

/-- A separated list closed by `close` is self-delimiting when its items are, none of them
starts with `close`, and the separator is not `close`. -/
theorem delimited_separated {item : α → List σ} {sep close : σ} (hitem : Delimited item)
    (havoid : Avoids item close) (hsep : sep ≠ close) :
    Delimited fun xs => separated item sep xs ++ [close] := by
  have hne : ∀ x xs r s, separated item sep (x :: xs) ++ r ≠ close :: s := fun x xs r s h => by
    rw [separated_cons, List.append_assoc] at h
    exact havoid x _ s h
  intro xs ys r s h
  simp only [List.append_assoc, List.singleton_append] at h
  induction xs generalizing ys with
  | nil =>
      cases ys with
      | nil => exact ⟨rfl, (List.cons.inj h).2⟩
      | cons y ys => exact absurd h.symm (hne y ys _ _)
  | cons x xs ih =>
      cases ys with
      | nil => exact absurd h (hne x xs _ _)
      | cons y ys =>
          simp only [separated_cons, List.append_assoc] at h
          obtain ⟨hxy, htail⟩ := hitem h
          -- after the first item comes the separator or the closing symbol, on both sides alike
          cases xs with
          | nil =>
              cases ys with
              | nil =>
                  obtain ⟨-, hrs⟩ := List.cons.inj htail
                  exact ⟨by rw [hxy], hrs⟩
              | cons z zs => exact absurd (List.cons.inj htail).1.symm hsep
          | cons w ws =>
              cases ys with
              | nil => exact absurd (List.cons.inj htail).1 hsep
              | cons z zs =>
                  obtain ⟨-, hrest⟩ := List.cons.inj htail
                  obtain ⟨hws, hrs⟩ := ih hrest
                  exact ⟨by rw [hxy, hws], hrs⟩

/-- A list between brackets. -/
def bracketed (item : α → List σ) (opening sep close : σ) (xs : List α) : List σ :=
  opening :: (separated item sep xs ++ [close])

/-- What is in an item is in the list. -/
theorem mem_bracketed {item : α → List σ} {opening sep close : σ} {xs : List α} {x : α} {b : σ}
    (hx : x ∈ xs) (hb : b ∈ item x) : b ∈ bracketed item opening sep close xs :=
  List.mem_cons_of_mem _ (List.mem_append_left _ (mem_separated hx hb))

/-- And what is in the list is in an item or around it. -/
theorem of_mem_bracketed {item : α → List σ} {opening sep close : σ} {xs : List α} {b : σ}
    (h : b ∈ bracketed item opening sep close xs) :
    b = opening ∨ b = sep ∨ b = close ∨ ∃ x ∈ xs, b ∈ item x := by
  rcases List.mem_cons.mp h with h | h
  · exact .inl h
  · rcases List.mem_append.mp h with h | h
    · rcases of_mem_separated h with h | h
      · exact .inr (.inl h)
      · exact .inr (.inr (.inr h))
    · exact .inr (.inr (.inl (List.mem_singleton.mp h)))

/-- A bracketed list of self-delimiting items is self-delimiting. -/
theorem delimited_bracketed {item : α → List σ} {opening sep close : σ}
    (hitem : Delimited item) (havoid : Avoids item close) (hsep : sep ≠ close) :
    Delimited (bracketed item opening sep close) := fun _ _ _ _ h =>
  delimited_separated hitem havoid hsep (List.cons.inj h).2

/-- Items may be read before they are written. -/
theorem separated_map {β : Type*} (item : β → List σ) (read : α → β) (sep : σ) (xs : List α) :
    separated item sep (xs.map read) = separated (fun x => item (read x)) sep xs := by
  induction xs with
  | nil => rfl
  | cons x xs ih => rw [List.map_cons, separated_cons, separated_cons, ih, List.isEmpty_map]

/-- Items may be read before they are written. -/
theorem bracketed_map {β : Type*} (item : β → List σ) (read : α → β) (opening sep close : σ)
    (xs : List α) : bracketed item opening sep close (xs.map read) =
      bracketed (fun x => item (read x)) opening sep close xs := by
  rw [bracketed, bracketed, separated_map]

/-- Longer items make a longer list. -/
theorem length_separated_le {f g : α → List σ} (sep : σ) {xs : List α}
    (h : ∀ x ∈ xs, (f x).length ≤ (g x).length) :
    (separated f sep xs).length ≤ (separated g sep xs).length := by
  induction xs with
  | nil => exact Nat.le_refl _
  | cons x xs ih =>
      obtain ⟨hx, hrest⟩ := List.forall_mem_cons.mp h
      have htail := ih hrest
      simp only [separated_cons, List.length_append]
      omega

/-- One longer item makes it strictly longer. -/
theorem length_separated_lt {f g : α → List σ} (sep : σ) {xs : List α}
    (h : ∀ x ∈ xs, (f x).length ≤ (g x).length) {x : α} (hx : x ∈ xs)
    (hlt : (f x).length < (g x).length) :
    (separated f sep xs).length < (separated g sep xs).length := by
  induction xs with
  | nil => exact absurd hx List.not_mem_nil
  | cons y ys ih =>
      obtain ⟨hy, hrest⟩ := List.forall_mem_cons.mp h
      simp only [separated_cons, List.length_append]
      rcases List.mem_cons.mp hx with rfl | hx
      · have htail := length_separated_le sep hrest
        omega
      · have htail := ih hrest hx
        omega

/-- Items stand in a list between brackets whole. -/
theorem length_bracketed (item : α → List σ) (opening sep close : σ) (xs : List α) :
    (bracketed item opening sep close xs).length = (separated item sep xs).length + 2 := by
  simp [bracketed]

/-- The text of an item is no longer than the list it stands in. -/
theorem length_item_le_separated {item : α → List σ} (sep : σ) {xs : List α} {x : α} (hx : x ∈ xs) :
    (item x).length ≤ (separated item sep xs).length := by
  induction xs with
  | nil => exact absurd hx List.not_mem_nil
  | cons y ys ih =>
      rw [separated_cons, List.length_append, List.length_append]
      rcases List.mem_cons.mp hx with rfl | hx
      · omega
      · have hle := ih hx
        omega

/-- A text that starts with another symbol does not start with `z`. -/
theorem avoids_of_head {encode : α → List σ} {a z : σ} {tail : α → List σ}
    (h : ∀ x, encode x = a :: tail x) (hz : a ≠ z) : Avoids encode z := by
  intro x r s heq
  rw [h x] at heq
  exact hz (List.cons.inj heq).1

end Wire
