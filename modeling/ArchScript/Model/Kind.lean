/-
  The closed vocabularies of a model: the kinds of its entities and the property keys.

  Each has one written form (`text`), used in messages, in derived ids and in exports, and
  reads it back (`ofText?`).
-/

namespace ArchScript

/-! ## Actors -/

/-- Agents and users act; a store only keeps data. -/
inductive ActorKind where
  | agent
  | user
  | store
deriving DecidableEq

namespace ActorKind

def all : List ActorKind := [agent, user, store]

def text : ActorKind → String
  | agent => "agent"
  | user => "user"
  | store => "store"

def ofText? (s : String) : Option ActorKind := all.find? fun k => k.text == s

theorem ofText?_text (k : ActorKind) : ofText? k.text = some k := by cases k <;> decide

/-- May take part in a channel and may drive a data flow. -/
def isActive : ActorKind → Bool
  | agent => true
  | user => true
  | store => false

def isStore : ActorKind → Bool
  | agent => false
  | user => false
  | store => true

/-- Every kind is either active or a store. -/
theorem isStore_eq (k : ActorKind) : k.isStore = !k.isActive := by cases k <;> rfl

end ActorKind

/-! ## Channels, data flows and steps -/

/-- A channel carries requests and their responses, or messages without an answer. -/
inductive ChannelKind where
  | requestResponse
  | async
deriving DecidableEq

namespace ChannelKind

def all : List ChannelKind := [requestResponse, async]

def text : ChannelKind → String
  | requestResponse => "req_res"
  | async => "async"

def ofText? (s : String) : Option ChannelKind := all.find? fun k => k.text == s

theorem ofText?_text (k : ChannelKind) : ofText? k.text = some k := by cases k <;> decide

end ChannelKind

/-- The direction in which data leaves or enters a store. -/
inductive FlowKind where
  | read
  | write
deriving DecidableEq

namespace FlowKind

def all : List FlowKind := [read, write]

def text : FlowKind → String
  | read => "read"
  | write => "write"

def ofText? (s : String) : Option FlowKind := all.find? fun k => k.text == s

theorem ofText?_text (k : FlowKind) : ofText? k.text = some k := by cases k <;> decide

end FlowKind

/-- What a step of a scenario does. -/
inductive StepKind where
  | request
  | response
  | dataRead
  | dataWrite
deriving DecidableEq

namespace StepKind

def all : List StepKind := [request, response, dataRead, dataWrite]

def text : StepKind → String
  | request => "req"
  | response => "res"
  | dataRead => "data_read"
  | dataWrite => "data_write"

def ofText? (s : String) : Option StepKind := all.find? fun k => k.text == s

theorem ofText?_text (k : StepKind) : ofText? k.text = some k := by cases k <;> decide

/-- The step that uses a data flow of this kind. -/
def ofFlow : FlowKind → StepKind
  | .read => dataRead
  | .write => dataWrite

end StepKind

/-! ## Properties -/

/-- The keys that an annotation may set, in their order. -/
inductive PropertyKey where
  | color
  | prototype
deriving DecidableEq, Ord

namespace PropertyKey

def all : List PropertyKey := [color, prototype]

def text : PropertyKey → String
  | color => "color"
  | prototype => "prototype"

def ofText? (s : String) : Option PropertyKey := all.find? fun k => k.text == s

theorem ofText?_text (k : PropertyKey) : ofText? k.text = some k := by cases k <;> decide

end PropertyKey

end ArchScript
