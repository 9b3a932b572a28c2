import Gnostr.Crypto.Sha256Stream
import Gnostr.Event.Commitment

/-!
# The digest of an event

`generate_event_id` of `gnostr.c` with the hash of `sha256.c` it calls: the text is written into a
static buffer and hashed where it stands. Whatever the machine and the address of the buffer, the
id is the digest of the standard (`generate_event_id_standard`), so what is known of
`generate_event_id` for a given hash function holds with this one.
-/

namespace Gnostr

open Wire

/-- How a call ends without an outcome: in the serialiser, or in the hash. -/
inductive IdStop where
  | tags
  | hash (stop : Sha256.Stop)

/-- The text of a commitment is part of the buffer. -/
theorem length_commitment_slice {ev : NostrEvent} {len : Nat} {buf : Mem}
    (h : eventCommitment ev (fun _ => 0) bufferSize = some (len, buf)) :
    (buf.slice 0 len).length < 2 ^ 63 := by
  have hlen : len ≤ bufferSize := by
    by_cases hzero : len = 0
    · omega
    · obtain ⟨-, hroom, rfl, -⟩ :=
        commit_with_success (emits_push_jsonstr ev.content) h hzero
      exact Nat.le_of_lt hroom
  have hsize : bufferSize < 2 ^ 63 := by decide
  simp only [Mem.slice, List.length_map, List.length_range]
  omega

/-- `generate_event_id`, with its buffer at some address. -/
def generateEventIdAt (m : Sha256.Machine) (addr : Nat) (ev : NostrEvent) :
    Except IdStop (Bool × NostrEvent) :=
  match h : eventCommitment ev (fun _ => 0) bufferSize with
  | none => .error .tags
  | some (len, buf) =>
      if len = 0 then .ok (false, ev)
      else
        match Sha256.sha256 m ⟨addr, buf.slice 0 len, length_commitment_slice h⟩ with
        | .ok id => .ok (true, { ev with id := id })
        | .error stop => .error (.hash stop)

/-- On every machine `generate_event_id` is the function that was studied for a given hash, with
the digest of the standard in its place. -/
theorem generate_event_id_at_eq (m : Sha256.Machine) (addr : Nat) (ev : NostrEvent) :
    generateEventIdAt m addr ev =
      (generateEventId Sha256.Standard.digest ev).elim (.error .tags) .ok := by
  have hgenerate : generateEventId Sha256.Standard.digest ev =
      (eventCommitment ev (fun _ => 0) bufferSize >>= fun run =>
        some (if run.1 = 0 then (false, ev)
          else (true, { ev with id := Sha256.Standard.digest (run.2.slice 0 run.1) }))) := rfl
  unfold generateEventIdAt
  split
  · next h =>
    have hnone : generateEventId Sha256.Standard.digest ev = none := by rw [hgenerate, h]; rfl
    rw [hnone, Option.elim_none]
  · next len buf h =>
    have hsome : generateEventId Sha256.Standard.digest ev = some (if len = 0 then (false, ev)
        else (true, { ev with id := Sha256.Standard.digest (buf.slice 0 len) })) := by
      rw [hgenerate, h]
      rfl
    rw [hsome, Option.elim_some]
    simp only [Sha256.sha256_eq]
    split <;> rfl

/-- The id of an event is the digest of its commitment, and an event whose commitment does not fit
in the buffer is left alone. The one call without an outcome is that with explicit tags of a
negative length; with strings that fit an `int` the commitment has all of them whole. -/
theorem generate_event_id_standard (m : Sha256.Machine) (addr : Nat) (ev : NostrEvent) :
    generateEventIdAt m addr ev =
      (if ev.TagsDefined then
        .ok (if (commitmentText ev).length < bufferSize then
          (true, { ev with id := Sha256.Standard.digest (commitmentText ev) })
        else (false, ev))
      else .error .tags) ∧
    (ev.Short → ev.TagsDefined ∧ commitmentText ev = fullText ev) := by
  refine ⟨?_, fun hshort => ⟨tags_defined_of_short hshort, commitment_text_of_short hshort⟩⟩
  rw [generate_event_id_at_eq, generate_event_id_run]
  split_ifs <;> rfl

end Gnostr
