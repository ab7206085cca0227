import Reckoner.Settings.Basic
import Reckoner.Toml.Reading

/-!
# Settings in a document

A section is a table with named items; it may also list its items in order. An item that is
missing has its usual value, and an item nobody asks for is passed over.
-/

namespace Reckoner

namespace Toml

/-- The items of a section, by place and name. -/
abbrev Section := Nat → String → Option Value

/-- The items of a value that can be a section. A point in time has no items. -/
def Value.section? : Value → Option Section
  | .table t => some fun _ name => t.get? name
  | .array items => some fun place _ => items[place]?
  | .tables earlier latest => some fun place _ => (earlier ++ [latest])[place]?.map .table
  | .moment => some fun _ _ => none
  | _ => none

/-- Read an item of a section; it may be missing. -/
def Section.read {α : Type} (items : Section) (place : Nat) (name : String) (usual : α)
    (item : Value → Option α) : Option α :=
  match items place name with
  | none => some usual
  | some v => item v

/-- A whole number from zero up to a bound. -/
def Value.nat? (bound : Nat) : Value → Option Nat
  | .integer n => if 0 ≤ n ∧ n < bound then some n.toNat else none
  | _ => none

/-- A whole number of 32 bits without a sign. -/
def Value.word32? (v : Value) : Option Nat := v.nat? 0x100000000

/-- A whole number of 64 bits without a sign. -/
def Value.word64? (v : Value) : Option Nat := v.nat? 0x10000000000000000

/-- The text that a value is. -/
def Value.text? : Value → Option String
  | .text s => some s
  | _ => none

/-- There is nothing in the value. -/
def Value.isHollow : Value → Bool
  | .array items => items.isEmpty
  | .table t => t.entries.isEmpty
  | _ => false

/-- A name out of a choice: as text, or as the only name in a table, with nothing in it. -/
def Value.choice? {α : Type} (ofName : String → Option α) : Value → Option α
  | .text s => ofName s
  | .table ⟨_, [(name, content)]⟩ => if content.isHollow then ofName name else none
  | _ => none

end Toml

namespace Settings

open Toml

/-- The backend of a name. -/
def backend? : String → Option Backend
  | "moka" => some .expiring
  | "unbounded" => some .unbounded
  | "disabled" => some .disabled
  | _ => none

/-- Settings of the gate. -/
def gate? (v : Value) : Option Gate := do
  let items ← v.section?
  return {
    maxInFlight := ← items.read 0 "max_in_flight" ({} : Gate).maxInFlight Value.word64?
    pollMillis := ← items.read 1 "poll_interval_ms" ({} : Gate).pollMillis Value.word64? }

/-- Settings of the store. -/
def store? (v : Value) : Option Store := do
  let items ← v.section?
  return {
    backend := ← items.read 0 "backend" ({} : Store).backend (Value.choice? backend?)
    capacity := ← items.read 1 "max_capacity" ({} : Store).capacity Value.word64?
    lifetime := ← items.read 2 "time_to_live_seconds" ({} : Store).lifetime Value.word64? }

/-- Settings of the classification. -/
def classification? (v : Value) : Option Classification := do
  let items ← v.section?
  return {
    places :=
      ← items.read 0 "pre_calculation_decimals" ({} : Classification).places Value.word32? }

/-- Limits of the input. -/
def limits? (v : Value) : Option Limits := do
  let items ← v.section?
  return {
    expressionLength :=
      ← items.read 0 "max_expression_length" ({} : Limits).expressionLength Value.word64?
    batchSize := ← items.read 1 "max_batch_size" ({} : Limits).batchSize Value.word64? }

/-- Parameters of an evaluation. -/
def defaults? (v : Value) : Option Parameters := do
  let items ← v.section?
  return {
    places := ← items.read 0 "decimals" ({} : Parameters).places Value.word32?
    origin := ← items.read 1 "origin" ({} : Parameters).origin Value.text?
    bound := ← items.read 2 "bound" ({} : Parameters).bound Value.text? }

/-- All settings of a document. -/
def ofTable? (t : Table Value) : Option Settings := do
  let items ← (Value.table t).section?
  return {
    gate := ← items.read 0 "gate" {} gate?
    store := ← items.read 1 "cache" {} store?
    classification := ← items.read 2 "classifier" {} classification?
    limits := ← items.read 3 "limits" {} limits?
    defaults := ← items.read 4 "defaults" {} defaults? }

/-- Read settings from a text. -/
def ofText (s : String) : Except Failure Settings :=
  match Toml.ofText? s with
  | none => .error (.misconfigured "the text is no document of settings" none)
  | some t =>
    match ofTable? t with
    | none => .error (.misconfigured "a setting has a value of the wrong kind" none)
    | some settings => .ok settings

end Settings

end Reckoner
