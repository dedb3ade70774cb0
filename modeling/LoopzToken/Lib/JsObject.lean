import Mathlib.Data.List.Basic
import LoopzToken.Lib.Json

/-!
# Lib.JsObject

A JavaScript object used as a table: `o[k]` is searched among the own properties of `o`,
then among those of its prototype, and so on up the chain. A key is missing only if the
whole chain lacks it (`PropertyChain.get_eq_none_iff`).

Every object literal ends in `Object.prototype`. Of its properties the model keeps what a
program can see that calls one as a plain function, so that `this` is `undefined`, on one
value that was read from a JSON document.
-/

namespace Lib

/-! ### Property chains -/

/-- An object's own properties and its prototype, up to `null`. -/
inductive PropertyChain (ν : Type*)
  | null
  | object (own : List (String × ν)) (proto : PropertyChain ν)

namespace PropertyChain

variable {ν : Type*}

/-- `o[k]`; `none` is `undefined`. -/
def get : PropertyChain ν → String → Option ν
  | .null, _ => none
  | .object own proto, k => (own.lookup k).or (proto.get k)

/-- The keys of an object and of its prototypes. -/
def keys : PropertyChain ν → List String
  | .null => []
  | .object own proto => own.map (·.1) ++ proto.keys

theorem lookup_eq_none {own : List (String × ν)} {k : String} :
    own.lookup k = none ↔ k ∉ own.map (·.1) := by
  simp only [List.lookup_eq_none_iff, List.mem_map, bne_iff_ne, not_exists, not_and]
  exact ⟨fun h p hp hk => h p hp hk.symm, fun h p hp hk => h p hp hk.symm⟩

/-- A key is missing when no object of the chain has it. -/
theorem get_eq_none_iff {c : PropertyChain ν} {k : String} : c.get k = none ↔ k ∉ c.keys := by
  induction c with
  | null => simp [get, keys]
  | object own proto ih =>
      rw [get, keys, List.mem_append, not_or, Option.or_eq_none_iff, ih, lookup_eq_none]

/-- A key that is not hidden by an own property is inherited. -/
theorem get_inherited {own : List (String × ν)} {proto : PropertyChain ν} {k : String}
    (h : k ∉ own.map (·.1)) : (object own proto).get k = proto.get k := by
  rw [get, lookup_eq_none.mpr h, Option.none_or]

end PropertyChain

/-! ### Calls -/

/-- What is thrown: an `Error` with a text of the program, or a `TypeError` of the engine. -/
inductive JsError
  | error (message : String)
  | typeError (message : String)
  deriving DecidableEq, Repr

def JsError.message : JsError → String
  | .error m => m
  | .typeError m => m

/-- A call that has ended: what it printed, and whether it returned or threw. The value
it returned is left out. -/
structure Completion where
  console : List String := []
  result : Except JsError Unit

def Completion.returns : Completion := { result := .ok () }

def Completion.throws (e : JsError) : Completion := { result := .error e }

/-- A property value: a function, by what it does when called without `this`, or an
object that is not callable. Both are truthy. -/
inductive JsValue
  | function (call : Json → Completion)
  | object

/-- `v(payload)`; `text` is what the engine says if `v` is not a function. -/
def JsValue.call (text : Json → String) : JsValue → Json → Completion
  | .function f, payload => f payload
  | .object, payload => .throws (.typeError (text payload))

/-! ### `Object.prototype` -/

/-- The value is an array or an object. -/
def Json.isObject : Json → Bool
  | .array _ => true
  | .object _ => true
  | _ => false

/-- A function that starts by converting `this` to an object: `undefined` cannot be. -/
def needsThis (text : Json → String) : JsValue :=
  .function fun payload => .throws (.typeError (text payload))

/-- `Object.prototype`. `text k` is what the engine says when property `k` cannot be
called. -/
def objectPrototype (text : String → Json → String) : PropertyChain JsValue :=
  .object [
    -- `Object(payload)`: the payload itself or a wrapper of it, which is not a thenable
    ("constructor", .function fun _ => .returns),
    ("__defineGetter__", needsThis (text "__defineGetter__")),
    ("__defineSetter__", needsThis (text "__defineSetter__")),
    ("hasOwnProperty", needsThis (text "hasOwnProperty")),
    ("__lookupGetter__", needsThis (text "__lookupGetter__")),
    ("__lookupSetter__", needsThis (text "__lookupSetter__")),
    -- looks at `this` only when the argument is an object
    ("isPrototypeOf", .function fun payload =>
      if payload.isObject then .throws (.typeError (text "isPrototypeOf" payload))
      else .returns),
    ("propertyIsEnumerable", needsThis (text "propertyIsEnumerable")),
    -- "[object Undefined]"
    ("toString", .function fun _ => .returns),
    ("valueOf", needsThis (text "valueOf")),
    -- an accessor: reading it yields the prototype
    ("__proto__", .object),
    ("toLocaleString", needsThis (text "toLocaleString"))] .null

/-- The property names of `Object.prototype`. -/
def objectPrototypeNames : List String :=
  ["constructor", "__defineGetter__", "__defineSetter__", "hasOwnProperty", "__lookupGetter__",
    "__lookupSetter__", "isPrototypeOf", "propertyIsEnumerable", "toString", "valueOf",
    "__proto__", "toLocaleString"]

theorem objectPrototype_keys (text : String → Json → String) :
    (objectPrototype text).keys = objectPrototypeNames := rfl

/-- Calling an inherited property returns for two names and, on a value that is not an
object, for a third; for the rest it throws a `TypeError`. -/
theorem objectPrototype_call (text : String → Json → String) {k : String}
    (hk : k ∈ objectPrototypeNames) (payload : Json) :
    ∃ v, (objectPrototype text).get k = some v ∧
      (v.call (text k) payload).result =
        if k = "constructor" ∨ k = "toString" ∨ (k = "isPrototypeOf" ∧ payload.isObject = false)
        then .ok () else .error (.typeError (text k payload)) := by
  by_cases hproto : k = "isPrototypeOf"
  · -- the only one that looks at its argument
    subst hproto
    refine ⟨_, rfl, ?_⟩
    cases hobj : payload.isObject <;>
      simp [JsValue.call, hobj, Completion.throws, Completion.returns]
  · simp only [objectPrototypeNames, List.mem_cons, hproto, false_or, List.not_mem_nil,
      or_false] at hk
    rcases hk with rfl | rfl | rfl | rfl | rfl | rfl | rfl | rfl | rfl | rfl | rfl
    all_goals exact ⟨_, rfl, rfl⟩

end Lib
