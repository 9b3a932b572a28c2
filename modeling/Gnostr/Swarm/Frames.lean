import Gnostr.Swarm.Relay

/-!
# The texts of the frames

What `socket.send` is given in `template/server.js` and `template/swarm.js`. The texts are assembled
from template literals: a subscription identifier stands between quotation marks as it is, and the
id of an acknowledged event stands there without them. `JSON.stringify` is used for events and
counts only.
-/

namespace Gnostr.Swarm

open Wire

/-! ## `JSON.stringify` -/

section

variable (numberText : Json → Bytes)

mutual
/-- `JSON.stringify` of a parsed value; the texts of numbers are given. -/
def stringify : Json → Bytes
  | .null => ascii "null"
  | .bool b => if b then ascii "true" else ascii "false"
  | .int z => numberText (.int z)
  | .real m e => numberText (.real m e)
  | .str t => 34 :: (t.flatMap Json.renderChar ++ [34])
  | .arr vs => bracketed id 91 44 93 (stringifyItems vs)
  | .obj ms => bracketed id 123 44 125 (stringifyMembers ms)

def stringifyItems : List Json → List Bytes
  | [] => []
  | v :: vs => stringify v :: stringifyItems vs

def stringifyMembers : List (Bytes × Json) → List Bytes
  | [] => []
  | (key, v) :: ms =>
      (34 :: (key.flatMap Json.renderChar ++ 34 :: 58 :: stringify v)) :: stringifyMembers ms
end

/-- The text of a number is a JSON text. -/
def NumberTexts : Prop :=
  (∀ z, ∃ v, Json.Value (numberText (.int z)) v) ∧
    ∀ m e, ∃ v, Json.Value (numberText (.real m e)) v

variable {numberText}

/-- Each item of an array is written as a value. -/
theorem value_items {vs : List Json} (h : ∀ v ∈ vs, ∃ w, Json.Value (stringify numberText v) w) :
    ∀ t ∈ stringifyItems numberText vs, ∃ w, Json.Value t w := by
  induction vs with
  | nil => exact fun t ht => absurd ht List.not_mem_nil
  | cons v vs ih =>
      intro t ht
      rcases List.mem_cons.mp ht with rfl | ht
      · exact h v List.mem_cons_self
      · exact ih (fun w hw => h w (List.mem_cons_of_mem _ hw)) t ht

/-- Each member of an object is written as one. -/
theorem value_members {ms : List (Bytes × Json)}
    (h : ∀ m ∈ ms, Utf8 m.1 ∧ ∃ w, Json.Value (stringify numberText m.2) w) :
    ∀ t ∈ stringifyMembers numberText ms, Json.IsMember t := by
  induction ms with
  | nil => exact fun t ht => absurd ht List.not_mem_nil
  | cons m ms ih =>
      intro t ht
      rcases List.mem_cons.mp ht with rfl | ht
      · obtain ⟨hkey, w, hw⟩ := h m List.mem_cons_self
        exact ⟨_, m.1, _, w, rfl, Json.chars_render m.1, hkey, hw⟩
      · exact ih (fun n hn => h n (List.mem_cons_of_mem _ hn)) t ht

/-- What `JSON.stringify` writes is a JSON text. -/
theorem value_stringify (hnumbers : NumberTexts numberText) (v : Json) (h : v.isUtf8 = true) :
    ∃ w, Json.Value (stringify numberText v) w := by
  match v, h with
  | .null, _ => exact ⟨_, .litNull⟩
  | .bool true, _ => exact ⟨_, .litTrue⟩
  | .bool false, _ => exact ⟨_, .litFalse⟩
  | .int z, _ => exact hnumbers.1 z
  | .real m e, _ => exact hnumbers.2 m e
  | .str t, h => exact ⟨_, .string (Json.chars_render t) ((Json.is_utf8_str t).mp h)⟩
  | .arr vs, h =>
      have hitems := (Json.is_utf8_arr vs).mp h
      exact Json.exists_value_bracketed (value_items fun w hw =>
        value_stringify hnumbers w (hitems w hw))
  | .obj ms, h =>
      have hmembers := (Json.is_utf8_obj ms).mp h
      exact Json.exists_value_members (value_members fun m hm =>
        ⟨(hmembers m hm).1, value_stringify hnumbers m.2 (hmembers m hm).2⟩)
termination_by sizeOf v
decreasing_by
  · have hlt := List.sizeOf_lt_of_mem hw
    simp only [Json.arr.sizeOf_spec]
    omega
  · have hlt := List.sizeOf_lt_of_mem hm
    have hsnd : sizeOf m.2 < sizeOf m := by
      cases m
      simp only [Prod.mk.sizeOf_spec]
      omega
    simp only [Json.obj.sizeOf_spec]
    omega

end

/-! ## Frames -/

/-- The name of a message. -/
def Frame.name : Frame → String
  | .event _ _ => "EVENT"
  | .ok _ => "OK"
  | .eose _ => "EOSE"
  | .count _ _ => "COUNT"
  | .notice _ => "NOTICE"

/-- The id of the event or of the subscription a frame is about. -/
def Frame.subject : Frame → Value
  | .event key _ => key
  | .ok id => id
  | .eose key => key
  | .count key _ => key
  | .notice _ => none

/-- The text of a frame. -/
def Frame.text (engine : Engine) (numberText : Json → Bytes) : Frame → Except Thrown Bytes
  | .event key value => do
      return ascii "[\"EVENT\", \"" ++ (← Swarm.text engine key) ++ ascii "\", " ++
        stringify numberText value ++ ascii "]"
  | .ok id => do
      return ascii "[\"OK\", " ++ (← Swarm.text engine id) ++ ascii ", true, \"\"]"
  | .eose key => do
      return ascii "[\"EOSE\", \"" ++ (← Swarm.text engine key) ++ ascii "\"]"
  | .count key n => do
      return ascii "[\"COUNT\", \"" ++ (← Swarm.text engine key) ++ ascii "\", " ++
        stringify numberText (.obj [(ascii "count", .int n)]) ++ ascii "]"
  | .notice message => .ok (ascii "[\"NOTICE\", \"" ++ ascii message ++ ascii "\"]")

/-- The text is a JSON array of the name of the message, the id, and more. -/
def Frame.WellFormed (engine : Engine) (numberText : Json → Bytes) (frame : Frame) (id : Bytes) :
    Prop :=
  ∃ t rest, frame.text engine numberText = .ok t ∧
    Json.Text t (.arr (.str (ascii frame.name) :: .str id :: rest))

/-- An acknowledgement. -/
def Frame.isOk : Frame → Bool
  | .ok _ => true
  | _ => false

/-- A frame is well formed when its text is that of an array with its name and the id. -/
theorem well_formed_iff_of_text {engine : Engine} {numberText : Json → Bytes} {frame : Frame}
    {t : Bytes} (h : frame.text engine numberText = .ok t) (id : Bytes) :
    frame.WellFormed engine numberText id ↔
      ∃ rest, Json.Text t (.arr (.str (ascii frame.name) :: .str id :: rest)) := by
  constructor
  · rintro ⟨t', rest, ht', htext⟩
    obtain rfl := Except.ok.inj (h.symm.trans ht')
    exact ⟨rest, htext⟩
  · rintro ⟨rest, htext⟩
    exact ⟨t, rest, h, htext⟩

/-- A frame with the identifier between quotation marks. -/
theorem quoted_well_formed_iff {name : String} {id after : Bytes}
    (hname : Json.isPlain (ascii name) = true) (hutf8 : Utf8 id)
    (hafter : after = [93] ∨ ∃ t v, after = 44 :: 32 :: (t ++ [93]) ∧ Json.Value t v) :
    (∃ rest, Json.Text (91 :: 34 :: (ascii name ++ 34 :: 44 :: 32 :: 34 :: (id ++ 34 :: after)))
      (.arr (.str (ascii name) :: .str id :: rest))) ↔ Json.isRaw id = true := by
  constructor
  · rintro ⟨rest, htext⟩
    refine Json.is_raw_of_second hname ?_ htext
    rcases hafter with hafter | ⟨t, v, hafter, -⟩
    · exact .inl hafter
    · exact .inr ⟨_, hafter⟩
  · intro hraw
    rcases hafter with hafter | ⟨t, v, hafter, hv⟩
    · exact ⟨[], Json.text_of_second hname hraw hutf8 (.inl ⟨hafter, rfl⟩)⟩
    · have hspace : Json.Ws [32] := by simp [Json.Ws, Json.isWs]
      have helements := Json.Elements.last hspace hv Json.ws_nil
      exact ⟨[v], Json.text_of_second hname hraw hutf8 (.inr ⟨_, hafter, by simpa using helements⟩)⟩

section

variable (engine : Engine) (numberText : Json → Bytes) (id : Bytes)

/-- The text of an event frame. -/
theorem text_event (event : Json) :
    (Frame.event (some (.str id)) event).text engine numberText =
      .ok (91 :: 34 :: (ascii "EVENT" ++ 34 :: 44 :: 32 :: 34 :: (id ++ 34 ::
        44 :: 32 :: (stringify numberText event ++ [93])))) := by
  have hopen : ascii "[\"EVENT\", \"" = 91 :: 34 :: (ascii "EVENT" ++ [34, 44, 32, 34]) := rfl
  have hclose : ascii "\", " = [34, 44, 32] := rfl
  show Except.ok (_ ++ id ++ _ ++ _ ++ [93]) = _
  rw [hopen, hclose]
  simp

/-- The text of an `OK`, where the id has no quotes. -/
theorem text_ok :
    (Frame.ok (some (.str id))).text engine numberText =
      .ok (91 :: 34 :: (ascii "OK" ++ 34 :: 44 :: 32 :: (id ++ 44 :: ascii " true, \"\"]"))) := by
  have hopen : ascii "[\"OK\", " = 91 :: 34 :: (ascii "OK" ++ [34, 44, 32]) := rfl
  show Except.ok (_ ++ id ++ 44 :: ascii " true, \"\"]") = _
  rw [hopen]
  simp

/-- The text of an `EOSE`. -/
theorem text_eose :
    (Frame.eose (some (.str id))).text engine numberText =
      .ok (91 :: 34 :: (ascii "EOSE" ++ 34 :: 44 :: 32 :: 34 :: (id ++ 34 :: [93]))) := by
  have hopen : ascii "[\"EOSE\", \"" = 91 :: 34 :: (ascii "EOSE" ++ [34, 44, 32, 34]) := rfl
  show Except.ok (_ ++ id ++ [34, 93]) = _
  rw [hopen]
  simp

/-- The text of a count. -/
theorem text_count (count : Nat) :
    (Frame.count (some (.str id)) count).text engine numberText =
      .ok (91 :: 34 :: (ascii "COUNT" ++ 34 :: 44 :: 32 :: 34 :: (id ++ 34 ::
        44 :: 32 :: (stringify numberText (.obj [(ascii "count", .int count)]) ++ [93])))) := by
  have hopen : ascii "[\"COUNT\", \"" = 91 :: 34 :: (ascii "COUNT" ++ [34, 44, 32, 34]) := rfl
  have hclose : ascii "\", " = [34, 44, 32] := rfl
  show Except.ok (_ ++ id ++ _ ++ _ ++ [93]) = _
  rw [hopen, hclose]
  simp

end

/-- A frame about an id is well formed exactly if it is no acknowledgement and nothing in the id
would have to be escaped. -/
theorem frame_well_formed_iff (engine : Engine) (numberText : Json → Bytes)
    (hnumbers : NumberTexts numberText) (frame : Frame) (id : Bytes)
    (hid : frame.subject = some (.str id)) (hutf8 : Utf8 id)
    (hevent : ∀ key event, frame = .event key event → event.isUtf8 = true) :
    frame.WellFormed engine numberText id ↔ frame.isOk = false ∧ Json.isRaw id = true := by
  cases frame with
  | event key event =>
      obtain rfl : key = some (.str id) := hid
      obtain ⟨v, hv⟩ := value_stringify hnumbers event (hevent _ _ rfl)
      rw [well_formed_iff_of_text (text_event engine numberText id event)]
      refine Iff.trans (quoted_well_formed_iff rfl hutf8 (.inr ⟨_, v, rfl, hv⟩)) ?_
      exact (and_iff_right rfl).symm
  | ok key =>
      obtain rfl : key = some (.str id) := hid
      rw [well_formed_iff_of_text (text_ok engine numberText id)]
      refine iff_of_false ?_ fun h => Bool.noConfusion h.1
      rintro ⟨rest, htext⟩
      exact Json.not_second_of_bare (by decide) htext
  | eose key =>
      obtain rfl : key = some (.str id) := hid
      rw [well_formed_iff_of_text (text_eose engine numberText id)]
      refine Iff.trans (quoted_well_formed_iff rfl hutf8 (.inl rfl)) ?_
      exact (and_iff_right rfl).symm
  | count key count =>
      obtain rfl : key = some (.str id) := hid
      obtain ⟨v, hv⟩ := value_stringify hnumbers (.obj [(ascii "count", .int count)]) rfl
      rw [well_formed_iff_of_text (text_count engine numberText id count)]
      refine Iff.trans (quoted_well_formed_iff rfl hutf8 (.inr ⟨_, v, rfl, hv⟩)) ?_
      exact (and_iff_right rfl).symm
  | notice message => cases hid

/-- The texts of integers; the sample events have no other numbers. -/
def integerText : Json → Bytes
  | .int z => signedDecimal z
  | _ => [48]

/-- Integers are written as JSON has them. -/
theorem number_texts_integer : NumberTexts integerText :=
  ⟨fun z => ⟨_, Json.value_signed_decimal z⟩, fun _ _ => ⟨_, Json.value_signed_decimal 0⟩⟩

/-- A note is sent to the subscription `sub` in a well-formed frame. -/
theorem frame_well_formed_iff_sub :
    (Frame.event (string "sub") (noteWith "hello")).WellFormed samplePlatform.toEngine integerText
      (ascii "sub") := by
  have hutf8 : (noteWith "hello").isUtf8 = true := by decide +kernel
  refine (frame_well_formed_iff samplePlatform.toEngine integerText number_texts_integer
    (Frame.event (string "sub") (noteWith "hello")) (ascii "sub") rfl (by decide) ?_).mpr
    ⟨rfl, by decide⟩
  intro key event hframe
  obtain ⟨-, rfl⟩ := Frame.event.inj hframe
  exact hutf8

/-- The acknowledgement of a text. -/
def acknowledges (id : Bytes) : Effect → Bool
  | .send _ (.ok (some (.str t))) => t = id
  | _ => false

/-- The acknowledgement of a note is not well formed. -/
theorem acknowledgement_malformed :
    ¬ ∀ (platform : Platform) (numberText : Json → Bytes), NumberTexts numberText →
      ∀ (inputs : List Input) (socket : Nat) (frame : Frame) (id : Bytes),
      .send socket frame ∈ (run platform (Topic.start ⟨[], 0⟩) inputs).log →
      frame.subject = some (.str id) → Utf8 id →
      (∀ key event, frame = .event key event → event.isUtf8 = true) →
      frame.WellFormed platform.toEngine numberText id := by
  intro h
  have hsent : (run samplePlatform (Topic.start ⟨[], 0⟩)
      [.frame 0 (some (.arr [.str (ascii "EVENT"), noteWith "hello"]))]).log.any (acknowledges
        (ascii "7e5b2c762fa6f8e0a217429ae1e8d3084db7c73256165269f2e500fec23b75e3")) = true :=
    rfl
  obtain ⟨effect, heffect, hok⟩ := List.any_eq_true.mp hsent
  unfold acknowledges at hok
  split at hok
  · next socket t =>
    obtain rfl := of_decide_eq_true hok
    obtain ⟨text, rest, htext, hvalue⟩ := h samplePlatform integerText number_texts_integer _ socket
      (.ok (some (.str _))) _ heffect rfl rfl (fun _ _ hframe => by cases hframe)
    obtain rfl := Except.ok.inj ((text_ok _ integerText _).symm.trans htext)
    exact Json.not_second_of_bare (by decide) hvalue
  · cases hok

end Gnostr.Swarm
