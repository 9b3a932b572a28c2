import Gnostr.Wire.JsonLib
import Gnostr.Wire.Text

/-!
# Events of the swarm relay

`template/nostr_events.js`: the kinds of events and `validateEvent`, which guards the collection,
the subscriptions and the socket handler.

A value is what `JSON.parse` returns, with unique names and with finite numbers as they are after
rounding, or `undefined`. Arrays and objects are compared by identity, and two that were parsed are
never the same. A client can send anything, so the functions are defined on all values. Where the
language converts a value of another type, `text`, `toPrimitive` and `toNumber` do: the only values
they throw for are objects with a member `toString`, which hides the method and cannot be called,
and arrays that hold one.
-/

namespace Gnostr.Swarm

open Wire

/-! ## Values -/

/-- A parsed value, or `undefined`. -/
abbrev Value := Option Json

/-- What a function throws. -/
inductive Thrown where
  | typeError
  | syntaxError
  | error (message : Bytes)

/-- A number that is not `NaN`. -/
abbrev Extended := WithBot (WithTop Rat)

/-- What the relay takes from elsewhere: the checks of a library, and the conversions of the
language between numbers and their texts. -/
structure Engine where
  /-- `validateEvent` of `nostr-tools`. -/
  nostrValidate : Value → Bool
  /-- `verifySignature` of `nostr-tools`. -/
  nostrVerify : Value → Bool
  /-- The text of a number. -/
  numberText : Rat → Bytes
  /-- The number a text stands for; nothing stands for `NaN`. -/
  textNumber : Bytes → Option Extended

/-- A string literal. -/
def string (s : String) : Value :=
  some (.str (ascii s))

/-- A number literal. -/
def literal (z : Int) : Value :=
  some (.int z)

/-- A property of a value. -/
def get (key : String) : Value → Except Thrown Value
  | none | some .null => .error .typeError
  | some v => .ok (v.member (ascii key))

/-- The number a literal with a fraction or an exponent stands for. -/
def realNumber (m e : Int) : Rat :=
  if 0 ≤ e then m * 10 ^ e.toNat else mkRat m (10 ^ (-e).toNat)

/-- The number a value is. -/
def number : Value → Option Rat
  | some (.int z) => some z
  | some (.real m e) => some (realNumber m e)
  | _ => none

/-- `x === y`. -/
def strictEqual : Value → Value → Bool
  | none, none => true
  | some .null, some .null => true
  | some (.bool a), some (.bool b) => a = b
  | some (.str a), some (.str b) => a = b
  | x, y =>
      match number x, number y with
      | some a, some b => a = b
      | _, _ => false

/-- A value that is compared by what it is. -/
inductive Primitive where
  | undefined
  | null
  | bool (b : Bool)
  | str (t : Bytes)
  | number (q : Rat)
deriving DecidableEq

/-- The primitive value a value is, unless it is an array or an object. -/
def primitive : Value → Option Primitive
  | none => some .undefined
  | some .null => some .null
  | some (.bool b) => some (.bool b)
  | some (.str t) => some (.str t)
  | x => (number x).map .number

/-- Values are equal when they are the same primitive value. -/
theorem strict_equal_iff (x y : Value) :
    strictEqual x y = true ↔ ∃ p, primitive x = some p ∧ primitive y = some p := by
  rcases x with _ | x <;> rcases y with _ | y
  · simp [strictEqual, primitive]
  · cases y <;> simp [strictEqual, primitive, number]
  · cases x <;> simp [strictEqual, primitive, number]
  · cases x <;> cases y <;> simp [strictEqual, primitive, number, eq_comm]

/-- Equality the other way round. -/
theorem strict_equal_symm {x y : Value} (h : strictEqual x y = true) : strictEqual y x = true := by
  obtain ⟨p, hx, hy⟩ := (strict_equal_iff x y).mp h
  exact (strict_equal_iff y x).mpr ⟨p, hy, hx⟩

/-- And over a third value. -/
theorem strict_equal_trans {x y z : Value} (hxy : strictEqual x y = true)
    (hyz : strictEqual y z = true) : strictEqual x z = true := by
  obtain ⟨p, hx, hy⟩ := (strict_equal_iff x y).mp hxy
  obtain ⟨q, hy', hz⟩ := (strict_equal_iff y z).mp hyz
  obtain rfl := Option.some.inj (hy.symm.trans hy')
  exact (strict_equal_iff x z).mpr ⟨p, hx, hz⟩

/-- A value that is a number. -/
theorem number_of_primitive {x : Value} {q : Rat} (h : primitive x = some (.number q)) :
    number x = some q := by
  rcases x with _ | x
  · cases h
  · cases x with
    | int z => exact congrArg some (Primitive.number.inj (Option.some.inj h))
    | real m e => exact congrArg some (Primitive.number.inj (Option.some.inj h))
    | _ => cases h

/-- What is equal to a number literal is that number. -/
theorem number_of_strict_equal {x : Value} {z : Int} (h : strictEqual x (literal z) = true) :
    number x = some (z : Rat) := by
  obtain ⟨p, hp, hliteral⟩ := (strict_equal_iff _ _).mp h
  obtain rfl : p = .number z := (Option.some.inj hliteral).symm
  exact number_of_primitive hp

/-- Numbers are compared by what they are. -/
theorem strict_equal_of_number {x y : Value} {p q : Rat} (hx : number x = some p)
    (hy : number y = some q) : strictEqual x y = decide (p = q) := by
  unfold strictEqual
  split
  · cases hx
  · cases hx
  · cases hx
  · cases hx
  · rw [hx, hy]

/-- A literal is its number. -/
theorem number_literal (z : Int) : number (literal z) = some (z : Rat) := rfl

/-- The code points of a string. -/
def codePoints : Bytes → List Bytes
  | [] => []
  | b :: t =>
      (b :: t.takeWhile fun c => 0x80 ≤ c ∧ c < 0xC0) ::
        codePoints (t.dropWhile fun c => 0x80 ≤ c ∧ c < 0xC0)
termination_by t => t.length
decreasing_by
  exact Nat.lt_succ_of_le (List.dropWhile_sublist _).length_le

/-- The UTF-16 code units of a string, half a pair written in three octets. -/
def codeUnits (t : Bytes) : List Bytes :=
  (codePoints t).flatMap fun point =>
    match point with
    | [b0, b1, b2, b3] =>
        let n := (b0.toNat % 8 * 64 ^ 3 + b1.toNat % 64 * 64 ^ 2 + b2.toNat % 64 * 64 +
          b3.toNat % 64) - 0x10000
        [half (0xD800 + n / 1024), half (0xDC00 + n % 1024)]
    | point => [point]
where
  half (n : Nat) : Bytes :=
    [UInt8.ofNat (0xE0 + n / 4096), UInt8.ofNat (0x80 + n / 64 % 64), UInt8.ofNat (0x80 + n % 64)]

/-! ## Conversions -/

mutual
/-- The text of a parsed value. `toString` of an array joins the texts of its items; that of an
object can be hidden by a member, which is no function, and `valueOf` gives no primitive value
either. -/
def jsonText (engine : Engine) : Json → Except Thrown Bytes
  | .null => .ok (ascii "null")
  | .bool b => .ok (ascii (if b then "true" else "false"))
  | .int z => .ok (engine.numberText z)
  | .real m e => .ok (engine.numberText (realNumber m e))
  | .str t => .ok t
  | .arr vs => do return [44].intercalate (← itemTexts engine vs)
  | .obj ms =>
      if ms.any fun m => m.1 = ascii "toString" then .error .typeError
      else .ok (ascii "[object Object]")

/-- The texts `join` takes of the items of an array: none of `null`. -/
def itemTexts (engine : Engine) : List Json → Except Thrown (List Bytes)
  | [] => .ok []
  | .null :: vs => do return [] :: (← itemTexts engine vs)
  | v :: vs => do return (← jsonText engine v) :: (← itemTexts engine vs)
end

/-- The text of a value where a string is needed. -/
def text (engine : Engine) : Value → Except Thrown Bytes
  | none => .ok (ascii "undefined")
  | some v => jsonText engine v

/-- The primitive value a value is converted to for a comparison or for arithmetic. -/
def toPrimitive (engine : Engine) (x : Value) : Except Thrown Primitive :=
  match primitive x with
  | some p => .ok p
  | none => do return .str (← text engine x)

/-- The number a primitive value is converted to; nothing stands for `NaN`. -/
def Primitive.toNumber (engine : Engine) : Primitive → Option Extended
  | undefined => none
  | null => some ((0 : Rat) : WithTop Rat)
  | bool b => some ((if b then 1 else 0 : Rat) : WithTop Rat)
  | str t => engine.textNumber t
  | number q => some (q : WithTop Rat)

/-- The number a value is converted to. -/
def toNumber (engine : Engine) (x : Value) : Except Thrown (Option Extended) := do
  return (← toPrimitive engine x).toNumber engine

/-- `x < y` of primitive values: two strings are compared by their code units. -/
def Primitive.less (engine : Engine) : Primitive → Primitive → Bool
  | str s, str t => codeUnits s < codeUnits t
  | x, y =>
      match x.toNumber engine, y.toNumber engine with
      | some a, some b => a < b
      | _, _ => false

/-- `x < y`. -/
def lessThan (engine : Engine) (x y : Value) : Except Thrown Bool := do
  return (← toPrimitive engine x).less engine (← toPrimitive engine y)

/-- A number is a primitive value. -/
theorem primitive_of_number {x : Value} {q : Rat} (h : number x = some q) :
    primitive x = some (.number q) := by
  rcases x with _ | x
  · cases h
  · cases x with
    | int z => exact congrArg (Option.map Primitive.number) h
    | real m e => exact congrArg (Option.map Primitive.number) h
    | _ => cases h

/-- Numbers are not converted. -/
theorem to_number_of_number (engine : Engine) {x : Value} {q : Rat} (h : number x = some q) :
    toNumber engine x = .ok (some (q : WithTop Rat)) := by
  rw [toNumber, toPrimitive, primitive_of_number h]
  rfl

/-- Numbers are compared as such. -/
theorem less_than_of_number (engine : Engine) {x y : Value} {p q : Rat} (hx : number x = some p)
    (hy : number y = some q) : lessThan engine x y = .ok (decide (p < q)) := by
  have hless : Primitive.less engine (.number p) (.number q) = decide (p < q) := by
    simp [Primitive.less, Primitive.toNumber]
  rw [lessThan, toPrimitive, toPrimitive, primitive_of_number hx, primitive_of_number hy, ← hless]
  rfl

/-- The items a destructuring pattern takes from a value. -/
def iterate : Value → Except Thrown (List Json)
  | some (.arr vs) => .ok vs
  | some (.str t) => .ok ((codePoints t).map .str)
  | _ => .error .typeError

/-- The items of an array, for a method that only arrays have. -/
def elements : Value → Except Thrown (List Json)
  | some (.arr vs) => .ok vs
  | _ => .error .typeError

/-- `xs.some(p)`, which stops at the first item that satisfies `p`. -/
def anyItem (p : Value → Except Thrown Bool) : List Json → Except Thrown Bool
  | [] => .ok false
  | v :: vs => do
      if ← p (some v) then return true
      anyItem p vs

/-- `xs.includes(x)`, of an array or of a string. -/
def includes (engine : Engine) (xs x : Value) : Except Thrown Bool :=
  match xs with
  | some (.arr vs) => .ok (vs.any fun v => strictEqual (some v) x)
  | some (.str t) => do return (indexOf (← text engine x) t).isSome
  | _ => .error .typeError

/-- `x.startsWith(search)`. -/
def startsWith (engine : Engine) (x search : Value) : Except Thrown Bool :=
  match x with
  | some (.str t) => do return (← text engine search).isPrefixOf t
  | _ => .error .typeError

/-! ## Kinds -/

/-- The types `getEventType` tells apart. -/
inductive EventType where
  | regular
  | delete
  | replaceable
  | parameterizedReplaceable
  | ephemeral
  deriving DecidableEq

/-- `persistentKinds`. -/
def persistentKinds : List EventType :=
  [.regular, .delete, .replaceable, .parameterizedReplaceable]

/-- `replaceableKinds`. -/
def replaceableKinds : List Int :=
  [0, 3]

/-- `getEventType`: nothing stands for `undefined`. -/
def getEventType (engine : Engine) (kind : Value) : Except Thrown (Option EventType) := do
  if strictEqual kind (literal 5) then return some .delete
  if replaceableKinds.any fun z => strictEqual (literal z) kind then return some .replaceable
  if ← lessThan engine kind (literal 10000) then return some .regular
  if ← lessThan engine kind (literal 20000) then return some .replaceable
  if ← lessThan engine kind (literal 30000) then return some .ephemeral
  if ← lessThan engine kind (literal 40000) then return some .parameterizedReplaceable
  return none

/-- The type of a kind that is a number. -/
def numberType (q : Rat) : Option EventType :=
  if q = 5 then some .delete
  else if q = 0 ∨ q = 3 then some .replaceable
  else if q < 10000 then some .regular
  else if q < 20000 then some .replaceable
  else if q < 30000 then some .ephemeral
  else if q < 40000 then some .parameterizedReplaceable
  else none

/-- The type of a kind that is a number. -/
theorem get_event_type_of_number (engine : Engine) {kind : Value} {q : Rat}
    (h : number kind = some q) : getEventType engine kind = .ok (numberType q) := by
  have hless (z : Int) : lessThan engine kind (literal z) = .ok (decide (q < z)) :=
    less_than_of_number engine h (number_literal z)
  have hequal (z : Int) : strictEqual (literal z) kind = decide (q = z) := by
    rw [strict_equal_of_number (number_literal z) h]
    exact decide_eq_decide.mpr eq_comm
  unfold getEventType numberType
  simp only [strict_equal_of_number h (number_literal _), hless, hequal, replaceableKinds,
    List.any_cons, List.any_nil, Bool.or_false, Bool.or_eq_true, decide_eq_true_eq, bind,
    Except.bind, pure, Except.pure, apply_ite Except.ok]
  push_cast
  rfl

/-- `isPersistent`. -/
def isPersistent (engine : Engine) (event : Value) : Except Thrown Bool := do
  match ← getEventType engine (← get "kind" event) with
  | some type => return type ∈ persistentKinds
  | none => return false

/-! ## Filters -/

/-- The names of `validateHandlers`. -/
def handlerNames : List String :=
  ["ids", "kinds", "authors", "hastag", "since", "until"]

/-- `validateHandlers.hastag`; without a tag, the call fails at the first tag of the event. -/
def hastag (engine : Engine) (event filter : Value) (tag : Option Bytes) : Except Thrown Bool := do
  let tags ← elements (← get "tags" event)
  tags |> anyItem fun item => do
    let items ← iterate item
    match tag with
    | none => .error .typeError
    | some tag =>
        if strictEqual items[0]? (some (.str (tag.drop 1))) then includes engine filter items[1]?
        else return false

/-- A call of a member that every object inherits, by what becomes of its result. -/
def callInherited (engine : Engine) (key : Bytes) (event : Value) : Except Thrown Bool :=
  if key ∈ ["constructor", "toString", "toLocaleString", "valueOf"].map ascii then .ok true
  else if key = ascii "isPrototypeOf" then .ok false
  else if key ∈ ["hasOwnProperty", "propertyIsEnumerable"].map ascii then do
    return (← text engine event) ∈ handlerNames.map ascii
  else if key ∈ ["__lookupGetter__", "__lookupSetter__"].map ascii then do
    return (← text engine event) = ascii "__proto__"
  -- the other names are no function here, or one that wants a function
  else .error .typeError

/-- `validateHandlers[key](event, value)`, as a truth value. -/
def callHandler (engine : Engine) (key : Bytes) (event value : Value) : Except Thrown Bool := do
  if key = ascii "ids" then
    (← elements value) |> anyItem fun id => do startsWith engine (← get "id" event) id
  else if key = ascii "kinds" then includes engine value (← get "kind" event)
  else if key = ascii "authors" then
    (← elements value) |> anyItem fun author => do startsWith engine (← get "pubkey" event) author
  else if key = ascii "hastag" then hastag engine event value none
  else if key = ascii "since" then lessThan engine value (← get "created_at" event)
  else if key = ascii "until" then lessThan engine (← get "created_at" event) value
  else callInherited engine key event

/-- The names of a function object and of the objects it inherits from: what `key in validateEvent`
finds. -/
def functionNames : List String :=
  ["length", "name", "prototype", "arguments", "caller", "constructor", "apply", "bind", "call",
    "toString", "toLocaleString", "valueOf", "hasOwnProperty", "isPrototypeOf",
    "propertyIsEnumerable", "__defineGetter__", "__defineSetter__", "__lookupGetter__",
    "__lookupSetter__", "__proto__"]

/-- `Object.entries`, without the indices of arrays and strings, which no filter looks at. -/
def entries : Json → Except Thrown (List (Bytes × Json))
  | .null => .error .typeError
  | .obj ms => .ok ms
  | _ => .ok []

/-- The names a filter looks at. -/
def isFilterKey (key : Bytes) : Bool :=
  key.head? = some 35 || (key ∈ functionNames.map ascii && key ≠ ascii "limit")

/-- Whether an event satisfies one filter. -/
def validateFilter (engine : Engine) (event : Value) (filter : Json) : Except Thrown Bool := do
  let results ← ((← entries filter).filter fun entry => isFilterKey entry.1).mapM
    fun (key, value) =>
      if key.head? = some 35 then hastag engine event (some value) (some key)
      else callHandler engine key event (some value)
  return results.all id

/-- `validateEvent`. The conditional operator binds weaker than `&&`, so its first branch is taken
only if both checks succeed and there are filters, and in all other cases the result is `true`. -/
def validateEvent (engine : Engine) (event : Value) (filters : Option (List Json)) :
    Except Thrown Bool :=
  match engine.nostrValidate event && engine.nostrVerify event, filters with
  | true, some filters => do return (← filters.mapM (validateFilter engine event)).any id
  | _, _ => .ok true

/-- An event that passes both checks. -/
def Engine.Passes (engine : Engine) (event : Json) : Prop :=
  engine.nostrValidate (some event) = true ∧ engine.nostrVerify (some event) = true

/-- An event that fails a check is let through, with or without filters. -/
theorem validate_event_of_fails {engine : Engine} {event : Json} (h : ¬ engine.Passes event)
    (filters : Option (List Json)) : validateEvent engine (some event) filters = .ok true := by
  have hfails : (engine.nostrValidate (some event) && engine.nostrVerify (some event)) = false := by
    rw [Bool.eq_false_iff, ne_eq, Bool.and_eq_true]
    exact h
  unfold validateEvent
  rw [hfails]

end Gnostr.Swarm
