import Mathlib.Data.List.Forall2

/-!
# Actions that may throw

A program with mutable state and exceptions. An exception does not undo anything: what was done
before it stays done, as in most imperative languages. `Keeps P m Q` is the rule used to reason
about such programs: `m` keeps the invariant `P` whether it returns or throws, and a value it
returns satisfies `Q`. `Returns P m` says that it does return. Programs without a state are taken
apart step by step with `bind_eq_ok` and `bind_eq_error`, and lists of checks with `map_m_all` and
`map_m_any`.
-/

namespace Wire

/-- A step that succeeds goes on with its result. -/
theorem bind_eq_ok {ε α β : Type} {x : Except ε α} {f : α → Except ε β} {b : β}
    (h : (x >>= f) = .ok b) : ∃ a, x = .ok a ∧ f a = .ok b := by
  cases x with
  | error e => cases h
  | ok a => exact ⟨a, rfl, h⟩

/-- Two steps fail where one of them does. -/
theorem bind_eq_error {ε α β : Type} {x : Except ε α} {f : α → Except ε β} {e : ε}
    (h : (x >>= f) = .error e) : x = .error e ∨ ∃ a, x = .ok a ∧ f a = .error e := by
  cases x with
  | error e' => exact .inl (congrArg Except.error (Except.error.inj h))
  | ok a => exact .inr ⟨a, rfl, h⟩

/-- A computation succeeds where it has a result. -/
theorem is_ok_iff {ε α : Type} {x : Except ε α} : x.isOk = true ↔ ∃ a, x = .ok a := by
  cases x with
  | error e => exact iff_of_false Bool.false_ne_true fun ⟨_, h⟩ => by cases h
  | ok a => exact iff_of_true rfl ⟨a, rfl⟩

/-- A step for every item succeeds where each of them does. -/
theorem map_m_eq_ok {ε α β : Type} {f : α → Except ε β} {g : α → β} {xs : List α}
    (h : ∀ x ∈ xs, f x = .ok (g x)) : xs.mapM f = .ok (xs.map g) := by
  induction xs with
  | nil => rfl
  | cons x xs ih =>
      rw [List.mapM_cons, h x List.mem_cons_self, ih fun y hy => h y (List.mem_cons_of_mem _ hy)]
      rfl

/-- Where all steps succeed together, each does. -/
theorem ok_of_map_m {ε α β : Type} {f : α → Except ε β} {xs : List α} {ys : List β}
    (h : xs.mapM f = .ok ys) : ∀ x ∈ xs, ∃ y, f x = .ok y := by
  induction xs generalizing ys with
  | nil => exact fun x hx => absurd hx List.not_mem_nil
  | cons x xs ih =>
      rw [List.mapM_cons] at h
      obtain ⟨y, hy, h⟩ := bind_eq_ok h
      obtain ⟨rest, hrest, -⟩ := bind_eq_ok h
      exact List.forall_mem_cons.mpr ⟨⟨y, hy⟩, ih hrest⟩

/-- A step for every item, and what holds of every result. -/
theorem map_m_forall_iff {ε α β : Type} {f : α → Except ε β} {R : α → β → Prop} {xs : List α} :
    (∃ ys, xs.mapM f = .ok ys ∧ List.Forall₂ R xs ys) ↔ ∀ x ∈ xs, ∃ y, f x = .ok y ∧ R x y := by
  induction xs with
  | nil => exact ⟨fun _ x hx => absurd hx List.not_mem_nil, fun _ => ⟨[], rfl, .nil⟩⟩
  | cons x xs ih =>
      rw [List.forall_mem_cons, ← ih]
      constructor
      · rintro ⟨ys, hys, hR⟩
        rw [List.mapM_cons] at hys
        obtain ⟨y, hy, hys⟩ := bind_eq_ok hys
        obtain ⟨rest, hrest, hcons⟩ := bind_eq_ok hys
        obtain rfl := Except.ok.inj hcons
        obtain ⟨hhead, htail⟩ := List.forall₂_cons.mp hR
        exact ⟨⟨y, hy, hhead⟩, rest, hrest, htail⟩
      · rintro ⟨⟨y, hy, hhead⟩, ys, hys, htail⟩
        refine ⟨y :: ys, ?_, .cons hhead htail⟩
        rw [List.mapM_cons, hy, hys]
        rfl

/-- An invariant of a loop over a list: what holds of the items done so far. -/
theorem foldl_m_invariant {ε α β : Type} {f : β → α → Except ε β} {xs : List α}
    (P : List α → β → Prop) {init : β} (hinit : P [] init)
    (hstep : ∀ done x rest acc, xs = done ++ x :: rest → P done acc →
      ∃ acc', f acc x = .ok acc' ∧ P (done ++ [x]) acc') :
    ∃ acc, xs.foldlM f init = .ok acc ∧ P xs acc := by
  suffices h : ∀ done rest acc, xs = done ++ rest → P done acc →
      ∃ acc', rest.foldlM f acc = .ok acc' ∧ P xs acc' from h [] xs init rfl hinit
  intro done rest
  induction rest generalizing done with
  | nil =>
      intro acc hxs hdone
      rw [List.append_nil] at hxs
      exact ⟨acc, rfl, hxs ▸ hdone⟩
  | cons x rest ih =>
      intro acc hxs hdone
      obtain ⟨acc', hx, hdone'⟩ := hstep done x rest acc hxs hdone
      rw [List.foldlM_cons, hx]
      exact ih (done ++ [x]) acc' (by rw [hxs, List.append_assoc]; rfl) hdone'

/-- A loop that ends has made every step. -/
theorem ok_of_foldl_m {ε α β : Type} {f : β → α → Except ε β} {xs : List α} {init acc : β}
    (h : xs.foldlM f init = .ok acc) : ∀ x ∈ xs, ∃ a b, f a x = .ok b := by
  induction xs generalizing init with
  | nil => exact fun x hx => absurd hx List.not_mem_nil
  | cons x xs ih =>
      rw [List.foldlM_cons] at h
      obtain ⟨mid, hmid, hrest⟩ := bind_eq_ok h
      exact List.forall_mem_cons.mpr ⟨⟨init, mid, hmid⟩, ih hrest⟩

/-- The truth values that checks give when none of them throws. -/
theorem map_m_checks {ε α : Type} {f : α → Except ε Bool} {xs : List α}
    (h : ∀ x ∈ xs, ∃ y, f x = .ok y) :
    ∃ g : α → Bool, xs.mapM f = .ok (xs.map g) ∧ ∀ x ∈ xs, g x = true ↔ f x = .ok true := by
  have hg : ∀ x ∈ xs, f x = .ok ((f x).toOption.getD false) := by
    intro x hx
    obtain ⟨y, hy⟩ := h x hx
    rw [hy]
    rfl
  refine ⟨fun x => (f x).toOption.getD false, map_m_eq_ok hg, fun x hx => ?_⟩
  rw [hg x hx, Except.ok.injEq]

/-- Checks that may throw, all of which are made, and what is concluded from them. -/
theorem map_m_conclude {ε α : Type} {f : α → Except ε Bool} {xs : List α} {b : Bool}
    {conclude : List Bool → Bool} {P : Prop}
    (hP : ∀ g : α → Bool, (∀ x ∈ xs, g x = true ↔ f x = .ok true) →
      (conclude (xs.map g) = true ↔ P)) :
    (xs.mapM f >>= fun ys => .ok (conclude ys)) = .ok b ↔
      (∀ x ∈ xs, ∃ y, f x = .ok y) ∧ (b = true ↔ P) := by
  constructor
  · intro h
    obtain ⟨ys, hys, hb⟩ := bind_eq_ok h
    have hok := ok_of_map_m hys
    obtain ⟨g, hmap, hg⟩ := map_m_checks hok
    obtain rfl := Except.ok.inj (hmap.symm.trans hys)
    rw [← Except.ok.inj hb]
    exact ⟨hok, hP g hg⟩
  · rintro ⟨hok, hb⟩
    obtain ⟨g, hmap, hg⟩ := map_m_checks hok
    rw [hmap]
    exact congrArg Except.ok (Bool.eq_iff_iff.mpr ((hP g hg).trans hb.symm))

/-- All of them have to succeed. -/
theorem map_m_all {ε α : Type} {f : α → Except ε Bool} {xs : List α} {b : Bool} :
    (xs.mapM f >>= fun ys => .ok (ys.all id)) = .ok b ↔
      (∀ x ∈ xs, ∃ y, f x = .ok y) ∧ (b = true ↔ ∀ x ∈ xs, f x = .ok true) :=
  map_m_conclude fun g hg => by
    rw [List.all_map, List.all_eq_true]
    exact forall₂_congr hg

/-- One of them has to succeed. -/
theorem map_m_any {ε α : Type} {f : α → Except ε Bool} {xs : List α} {b : Bool} :
    (xs.mapM f >>= fun ys => .ok (ys.any id)) = .ok b ↔
      (∀ x ∈ xs, ∃ y, f x = .ok y) ∧ (b = true ↔ ∃ x ∈ xs, f x = .ok true) :=
  map_m_conclude fun g hg => by
    rw [List.any_map, List.any_eq_true]
    exact exists_congr fun x => and_congr_right (hg x)

/-- A computation on a state that returns or throws. -/
def Action (σ ε α : Type) : Type :=
  σ → Except ε α × σ

namespace Action

variable {σ ε α β : Type}

instance : Monad (Action σ ε) where
  pure a := fun s => (.ok a, s)
  bind m f := fun s =>
    match m s with
    | (.ok a, s) => f a s
    | (.error e, s) => (.error e, s)

/-- Throw an exception. -/
def throw (e : ε) : Action σ ε α := fun s =>
  (.error e, s)

/-- A computation that does not look at the state. -/
def lift (x : Except ε α) : Action σ ε α := fun s =>
  (x, s)

/-- Read from the state. -/
def read (f : σ → α) : Action σ ε α := fun s =>
  (.ok (f s), s)

/-- Change the state. -/
def modify (f : σ → σ) : Action σ ε Unit := fun s =>
  (.ok (), f s)

/-- Run a computation whose exception is handed to `f`. -/
def settle (m : Action σ ε Unit) (f : ε → σ → σ) : Action σ ε Unit := fun s =>
  match m s with
  | (.ok (), s) => (.ok (), s)
  | (.error e, s) => (.ok (), f e s)

/-- Run a body for every item of a list, from the left. -/
def each (body : α → Action σ ε Unit) : List α → Action σ ε Unit
  | [] => pure ()
  | x :: xs => do
      body x
      each body xs

/-- Run a body for every item of a list with a value that it hands on. -/
def fold (body : β → α → Action σ ε β) : β → List α → Action σ ε β
  | b, [] => pure b
  | b, x :: xs => do
      let b ← body b x
      fold body b xs

/-! ## Invariants -/

/-- `m` keeps `P`, and what it returns satisfies `Q`. -/
def Keeps (P : σ → Prop) (m : Action σ ε α) (Q : α → Prop) : Prop :=
  ∀ s, P s → P (m s).2 ∧ ∀ a, (m s).1 = .ok a → Q a

variable {P : σ → Prop} {Q : α → Prop}

/-- The property holds of the state it leaves. -/
theorem Keeps.state {m : Action σ ε α} (h : Keeps P m Q) {s : σ} (hs : P s) : P (m s).2 :=
  (h s hs).1

/-- Returning keeps the state. -/
theorem keeps_pure {a : α} (h : Q a) : Keeps P (pure a : Action σ ε α) Q := by
  intro s hs
  refine ⟨hs, fun b hb => ?_⟩
  cases hb
  exact h

/-- So does an exception. -/
theorem keeps_throw (e : ε) : Keeps P (throw e : Action σ ε α) Q := by
  intro s hs
  refine ⟨hs, fun a ha => ?_⟩
  cases ha

/-- A change keeps what it is known to keep. -/
theorem keeps_modify {f : σ → σ} (h : ∀ s, P s → P (f s)) :
    Keeps P (modify f : Action σ ε Unit) fun _ => True :=
  fun s hs => ⟨h s hs, fun _ _ => trivial⟩

/-- Behind a step that succeeds comes the next. -/
theorem bind_of_ok {m : Action σ ε α} {s s' : σ} {a : α} (h : m s = (.ok a, s'))
    (f : α → Action σ ε β) : (m >>= f) s = f a s' := by
  show (match m s with
    | (.ok a, s) => f a s
    | (.error e, s) => (.error e, s)) = _
  rw [h]

/-- Behind one that fails nothing comes. -/
theorem bind_of_error {m : Action σ ε α} {s s' : σ} {e : ε} (h : m s = (.error e, s'))
    (f : α → Action σ ε β) : (m >>= f) s = (.error e, s') := by
  show (match m s with
    | (.ok a, s) => f a s
    | (.error e, s) => (.error e, s)) = _
  rw [h]

/-- Two steps keep what both of them keep. -/
theorem Keeps.bind {m : Action σ ε α} {f : α → Action σ ε β} {R : β → Prop} (hm : Keeps P m Q)
    (hf : ∀ a, Q a → Keeps P (f a) R) : Keeps P (m >>= f) R := by
  intro s hs
  obtain ⟨hP, hQ⟩ := hm s hs
  rcases hrun : m s with ⟨result, s'⟩
  rw [hrun] at hP hQ
  cases result with
  | error e =>
      rw [bind_of_error hrun]
      refine ⟨hP, fun b hb => ?_⟩
      cases hb
  | ok a =>
      rw [bind_of_ok hrun]
      exact hf a (hQ a rfl) s' hP

/-- What follows a computation on values. -/
theorem keeps_lift_bind {x : Except ε α} {f : α → Action σ ε β} {R : β → Prop}
    (hf : ∀ a, x = .ok a → Keeps P (f a) R) : Keeps P (lift x >>= f) R :=
  Keeps.bind (fun _ hs => ⟨hs, fun _ ha => ha⟩) hf

/-- What follows a look at the state. -/
theorem keeps_read_bind {g : σ → α} {f : α → Action σ ε β} {R : β → Prop}
    (hf : ∀ s, P s → Keeps P (f (g s)) R) : Keeps P (read g >>= f) R :=
  fun s hs => hf s hs s hs

/-- So does a step whose exception is noted. -/
theorem Keeps.settle {m : Action σ ε Unit} {f : ε → σ → σ} (hm : Keeps P m fun _ => True)
    (hf : ∀ e s, P s → P (f e s)) : Keeps P (m.settle f) fun _ => True := by
  intro s hs
  refine ⟨?_, fun _ _ => trivial⟩
  have hP := hm.state hs
  unfold Action.settle
  rcases hrun : m s with ⟨result, s'⟩
  rw [hrun] at hP
  cases result with
  | error e => exact hf e s' hP
  | ok a => exact hP

/-- A loop keeps what its body keeps. -/
theorem keeps_each {body : α → Action σ ε Unit} {xs : List α}
    (h : ∀ x ∈ xs, Keeps P (body x) fun _ => True) : Keeps P (each body xs) fun _ => True := by
  induction xs with
  | nil => exact keeps_pure trivial
  | cons x xs ih =>
      exact (h x List.mem_cons_self).bind fun _ _ =>
        ih fun y hy => h y (List.mem_cons_of_mem _ hy)

/-- A loop whose value keeps `R`. -/
theorem keeps_fold {R : β → Prop} {body : β → α → Action σ ε β} {b : β} {xs : List α} (hb : R b)
    (h : ∀ b x, R b → x ∈ xs → Keeps P (body b x) R) : Keeps P (fold body b xs) R := by
  induction xs generalizing b with
  | nil => exact keeps_pure hb
  | cons x xs ih =>
      exact (h b x hb List.mem_cons_self).bind fun _ hb' =>
        ih hb' fun b y hR hy => h b y hR (List.mem_cons_of_mem _ hy)

/-- `m` returns from every state with `P`, and keeps `P`. -/
def Returns (P : σ → Prop) (m : Action σ ε α) : Prop :=
  ∀ s, P s → ∃ a s', m s = (.ok a, s') ∧ P s'

/-- Returning returns. -/
theorem returns_pure (a : α) : Returns P (pure a : Action σ ε α) :=
  fun s hs => ⟨a, s, rfl, hs⟩

/-- So does a change. -/
theorem returns_modify {f : σ → σ} (h : ∀ s, P s → P (f s)) :
    Returns P (modify f : Action σ ε Unit) :=
  fun s hs => ⟨(), f s, rfl, h s hs⟩

/-- And two steps that return. -/
theorem Returns.bind {m : Action σ ε α} {f : α → Action σ ε β} (hm : Returns P m)
    (hf : ∀ a, Returns P (f a)) : Returns P (m >>= f) := by
  intro s hs
  obtain ⟨a, s', hrun, hs'⟩ := hm s hs
  rw [bind_of_ok hrun]
  exact hf a s' hs'

/-- A value that is there, and what is done with it. -/
theorem returns_lift_bind {x : Except ε α} {a : α} {f : α → Action σ ε β} (hx : x = .ok a)
    (hf : Returns P (f a)) : Returns P (lift x >>= f) := by
  subst hx
  exact hf

/-- A look at the state, and what is done with it. -/
theorem returns_read_bind {g : σ → α} {f : α → Action σ ε β} (hf : ∀ a, Returns P (f a)) :
    Returns P (read g >>= f) :=
  fun s hs => hf (g s) s hs

/-- A loop returns when its body does. -/
theorem returns_each {body : α → Action σ ε Unit} {xs : List α}
    (h : ∀ x ∈ xs, Returns P (body x)) : Returns P (each body xs) := by
  induction xs with
  | nil => exact returns_pure ()
  | cons x xs ih =>
      exact (h x List.mem_cons_self).bind fun _ => ih fun y hy => h y (List.mem_cons_of_mem _ hy)

end Action

end Wire
