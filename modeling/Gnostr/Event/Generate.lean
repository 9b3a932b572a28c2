import Gnostr.Event.Keys

/-!
# Generating a key in place

`generate_key` works on one `struct key`: `create_key` reads the secret out of it and writes the
pair and the public key into it, and `xor_mix` writes the next secret over the last one. Between
the two the fields do not belong together. `generateInPlace` is the function on the structure, and
`generate_in_place_eq` says that it computes what `generateKey` does with secrets alone.
-/

namespace Gnostr

open Wire

/-! ## `struct key` -/

/-- `create_key` on a structure: whether it returns 1, and what it leaves. A call that fails leaves
the fields that were not reached as they are. -/
def createInPlace (c : Crypto) (key : Key) : Bool × Key :=
  match c.keypairCreate key.secret with
  | none => (false, key)
  | some pair =>
      let key := { key with pair := pair }
      match c.keypairXonlyPub key.pair with
      | none => (false, key)
      | some point =>
          match c.xonlyPubkeySerialize point with
          | none => (false, key)
          | some pubkey => (true, { key with pubkey := pubkey })

/-- The loop of `generate_key`. -/
def mineInPlace (c : Crypto) (difficulty : Int32) : Nat → Key → Loop (Bool × Key)
  | 0, _ => .running
  | fuel + 1, key =>
      match createInPlace c key with
      | (false, key) => .done (false, key)
      | (true, key) =>
          if difficulty.toInt ≤ countLeadingZeroBits key.pubkey.1 then .done (true, key)
          else mineInPlace c difficulty fuel { key with secret := xorMix key.secret key.pubkey }

/-- `generate_key` on a structure that holds anything. -/
def generateInPlace (c : Crypto) (random : Random) (difficulty : Option Int32) (fuel : Nat)
    (key : Key) : Loop (Bool × Key) :=
  match random.secret with
  | none => .done (false, key)
  | some secret =>
      let key := { key with secret := secret }
      match difficulty with
      | none => .done (createInPlace c key)
      | some difficulty => mineInPlace c difficulty fuel key

/-! ## Keys that belong together -/

/-- The pair and the public key of a structure are those of its secret. -/
structure Key.Derived (c : Crypto) (key : Key) : Prop where
  pair : c.keypairCreate key.secret = some key.pair
  pubkey : (c.keypairXonlyPub key.pair).bind c.xonlyPubkeySerialize = some key.pubkey

/-- A key is derived from its secret when the secret gives it. -/
theorem derived_iff (c : Crypto) (key : Key) :
    key.Derived c ↔ createKey c key.secret = some key := by
  constructor
  · intro h
    obtain ⟨point, hpoint, hpubkey⟩ := Option.bind_eq_some_iff.mp h.pubkey
    simp only [createKey, h.pair, hpoint, hpubkey, Option.bind_eq_bind, Option.bind_some]
  · intro h
    obtain ⟨pair, hpair, h⟩ := Option.bind_eq_some_iff.mp h
    obtain ⟨point, hpoint, h⟩ := Option.bind_eq_some_iff.mp h
    obtain ⟨pubkey, hpubkey, h⟩ := Option.bind_eq_some_iff.mp h
    have hkey : ⟨pair, key.secret, pubkey⟩ = key := Option.some.inj h
    rw [← hkey]
    exact ⟨hpair, Option.bind_eq_some_iff.mpr ⟨point, hpoint, hpubkey⟩⟩

/-- `create_key` keeps the secret, and returns 1 exactly if it leaves the key of that secret. -/
theorem create_in_place_cases (c : Crypto) (key : Key) :
    (∃ left, createInPlace c key = (false, left) ∧ left.secret = key.secret ∧
      createKey c key.secret = none) ∨
    ∃ left, createInPlace c key = (true, left) ∧ left.secret = key.secret ∧
      createKey c key.secret = some left := by
  cases hpair : c.keypairCreate key.secret with
  | none => exact .inl ⟨key, by simp [createInPlace, hpair], rfl, by simp [createKey, hpair]⟩
  | some pair =>
      cases hpoint : c.keypairXonlyPub pair with
      | none =>
          refine .inl ⟨{ key with pair := pair }, ?_, rfl, ?_⟩
          · simp [createInPlace, hpair, hpoint]
          · simp [createKey, hpair, hpoint]
      | some point =>
          cases hpubkey : c.xonlyPubkeySerialize point with
          | none =>
              refine .inl ⟨{ key with pair := pair }, ?_, rfl, ?_⟩
              · simp [createInPlace, hpair, hpoint, hpubkey]
              · simp [createKey, hpair, hpoint, hpubkey]
          | some pubkey =>
              refine .inr ⟨⟨pair, key.secret, pubkey⟩, ?_, rfl, ?_⟩
              · simp [createInPlace, hpair, hpoint, hpubkey]
              · simp [createKey, hpair, hpoint, hpubkey]

/-- What a call that has ended says, without what a failed call leaves. -/
def Loop.kept : Loop (Bool × Key) → Loop (Option Key)
  | .running => .running
  | .done (true, key) => .done (some key)
  | .done (false, _) => .done none

/-- The loop on the structure follows the secrets. -/
theorem mine_in_place_eq (c : Crypto) (difficulty : Int32) (fuel : Nat) (key : Key) :
    (mineInPlace c difficulty fuel key).kept = mineKey c difficulty fuel key.secret := by
  induction fuel generalizing key with
  | zero => rfl
  | succ fuel ih =>
      unfold mineInPlace mineKey
      rcases create_in_place_cases c key with ⟨left, hrun, -, hkey⟩ | ⟨left, hrun, -, hkey⟩
      · rw [hrun, hkey]
        rfl
      · rw [hrun, hkey]
        simp only
        split
        · rfl
        · exact ih _

/-- `generate_key` on the structure computes what it does with secrets alone. -/
theorem generate_in_place_eq (c : Crypto) (random : Random) (difficulty : Option Int32)
    (fuel : Nat) (key : Key) :
    (generateInPlace c random difficulty fuel key).kept = generateKey c random difficulty fuel := by
  unfold generateInPlace generateKey
  cases random.secret with
  | none => rfl
  | some secret =>
      cases difficulty with
      | none =>
          rcases create_in_place_cases c { key with secret := secret } with
            ⟨left, hrun, -, hkey⟩ | ⟨left, hrun, -, hkey⟩
          · simp only [hrun, Loop.kept]
            exact congrArg Loop.done hkey.symm
          · simp only [hrun, Loop.kept]
            exact congrArg Loop.done hkey.symm
      | some difficulty => exact mine_in_place_eq c difficulty fuel { key with secret := secret }

/-! ## What the loop leaves -/

/-- How a call of `generate_key` may end: with 1 and a key that belongs together and has the work
asked for, or with 0 because the key of the last secret could not be made. -/
def Generated (c : Crypto) (difficulty : Option Int32) : Bool × Key → Prop
  | (true, key) => key.Derived c ∧
      ∀ bits, difficulty = some bits → bits.toInt ≤ countLeadingZeroBits key.pubkey.1
  | (false, key) => createKey c key.secret = none

/-- However many rounds it takes, the loop ends in one of these ways. -/
theorem generated_mine {c : Crypto} {difficulty : Int32} {fuel : Nat} {key : Key}
    {result : Bool × Key} (h : mineInPlace c difficulty fuel key = .done result) :
    Generated c (some difficulty) result := by
  induction fuel generalizing key with
  | zero => cases h
  | succ fuel ih =>
      unfold mineInPlace at h
      rcases create_in_place_cases c key with
        ⟨left, hrun, hsecret, hkey⟩ | ⟨left, hrun, hsecret, hkey⟩
      · rw [hrun] at h
        obtain rfl := Loop.done.inj h
        show createKey c left.secret = none
        rw [hsecret]
        exact hkey
      · rw [hrun] at h
        simp only at h
        split at h
        · next hbits =>
          obtain rfl := Loop.done.inj h
          refine ⟨(derived_iff c left).mpr (hsecret ▸ hkey), fun bits heq => ?_⟩
          obtain rfl := Option.some.inj heq
          exact hbits
        · exact ih h

/-- A generated key belongs together and has the work that was asked for, however many rounds it
took; a call that returns 0 had no random numbers or could not make the key of its last secret. -/
theorem generate_key_derived (c : Crypto) (random : Random) (difficulty : Option Int32)
    (fuel : Nat) (key left : Key) :
    (generateInPlace c random difficulty fuel key = .done (true, left) →
      left.Derived c ∧
      ∀ bits, difficulty = some bits → bits.toInt ≤ countLeadingZeroBits left.pubkey.1) ∧
    (generateInPlace c random difficulty fuel key = .done (false, left) →
      random.secret = none ∨ createKey c left.secret = none) := by
  have hcases : ∀ result, generateInPlace c random difficulty fuel key = .done result →
      (random.secret = none ∧ result = (false, key)) ∨ Generated c difficulty result := by
    intro result h
    unfold generateInPlace at h
    cases hrandom : random.secret with
    | none =>
        rw [hrandom] at h
        exact .inl ⟨rfl, (Loop.done.inj h).symm⟩
    | some secret =>
        rw [hrandom] at h
        refine .inr ?_
        cases difficulty with
        | some difficulty => exact generated_mine h
        | none =>
            obtain rfl := Loop.done.inj h
            rcases create_in_place_cases c { key with secret := secret } with
              ⟨left, hrun, hsecret, hkey⟩ | ⟨left, hrun, hsecret, hkey⟩
            · rw [hrun]
              show createKey c left.secret = none
              rw [hsecret]
              exact hkey
            · rw [hrun]
              exact ⟨(derived_iff c left).mpr (hsecret ▸ hkey), fun bits heq => by cases heq⟩
  constructor
  · intro h
    rcases hcases _ h with ⟨-, hresult⟩ | hgenerated
    · cases hresult
    · exact hgenerated
  · intro h
    rcases hcases _ h with ⟨hrandom, -⟩ | hgenerated
    · exact .inl hrandom
    · exact .inr hgenerated

/-- With the secret key 3 for a random number, no work takes one round. -/
theorem generate_key_derived_sample :
    ∃ left, generateInPlace sampleCrypto { sampleRandom with secret := some sampleSecret } (some 0)
        1 ⟨samplePair, sampleSecret, peerPubkey⟩ = .done (true, left) ∧
      left.Derived sampleCrypto ∧ left.pubkey = samplePubkey := by
  have hrun : generateInPlace sampleCrypto { sampleRandom with secret := some sampleSecret }
      (some 0) 1 ⟨samplePair, sampleSecret, peerPubkey⟩ = .done (true, sampleKey) := by
    have hcreate : createInPlace sampleCrypto ⟨samplePair, sampleSecret, peerPubkey⟩ =
        (true, sampleKey) := by
      simp [createInPlace, sampleCrypto, sampleKey]
    have hzero : (0 : Int32).toInt ≤ countLeadingZeroBits sampleKey.pubkey.1 := by decide
    simp only [generateInPlace, mineInPlace, hcreate, hzero, if_true]
  exact ⟨sampleKey, hrun, ((generate_key_derived sampleCrypto _ _ _ _ _).1 hrun).1, rfl⟩

end Gnostr
