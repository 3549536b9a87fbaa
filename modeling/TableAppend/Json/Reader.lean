import TableAppend.Json.Token

/-!
# Reading JSON documents

The tokens of a document move an automaton whose state is the container under way with those around
it.  Each token is one step, so reading is a fold over the tokens.
-/

namespace TableAppend.Json

abbrev Member := Option String × Json

/-- The containers around a place where a value stands, with what they hold so far, newest first. -/
inductive Context where
  | root
  | item (items : List Json) (outer : Context)
  | member (members : List Member) (name : Option String) (outer : Context)

/-- What may come next. -/
inductive State where
  | value (place : Context)
  | firstItem (outer : Context)
  | afterItem (items : List Json) (outer : Context)
  | firstName (outer : Context)
  | nextName (members : List Member) (outer : Context)
  | colon (members : List Member) (name : Option String) (outer : Context)
  | afterMember (members : List Member) (outer : Context)
  | finished (json : Json)

/-- The state after a value is complete. -/
def Context.fill : Context → Json → State
  | .root, json => .finished json
  | .item items outer, json => .afterItem (json :: items) outer
  | .member members name outer, json => .afterMember ((name, json) :: members) outer

/-- The state after the first token of a value. -/
def Context.begin? (place : Context) : Token → Option State
  | .null => some (place.fill .null)
  | .bool value => some (place.fill (.bool value))
  | .number value => some (place.fill (.number value))
  | .string value => some (place.fill (.string value))
  | .openBracket => some (.firstItem place)
  | .openBrace => some (.firstName place)
  | .closeBracket | .closeBrace | .colon | .comma => none

def State.next? : State → Token → Option State
  | .value place, token => place.begin? token
  | .firstItem outer, .closeBracket => some (outer.fill (.array []))
  | .firstItem outer, token => (Context.item [] outer).begin? token
  | .afterItem items outer, .comma => some (.value (.item items outer))
  | .afterItem items outer, .closeBracket => some (outer.fill (.array items.reverse))
  | .firstName outer, .closeBrace => some (outer.fill (.object []))
  | .firstName outer, .string name => some (.colon [] name outer)
  | .nextName members outer, .string name => some (.colon members name outer)
  | .colon members name outer, .colon => some (.value (.member members name outer))
  | .afterMember members outer, .comma => some (.nextName members outer)
  | .afterMember members outer, .closeBrace => some (outer.fill (.object members.reverse))
  | _, _ => none

def State.run? : State → List Token → Option State
  | state, [] => some state
  | state, token :: rest => state.next? token >>= fun next => next.run? rest

def ofTokens? (tokens : List Token) : Option Json :=
  match (State.value .root).run? tokens with
  | some (.finished json) => some json
  | _ => none

/-- The document that a text holds, spaces around it aside. -/
def parse? (text : String) : Option Json :=
  Token.ofText? text.toList >>= ofTokens?

end TableAppend.Json
