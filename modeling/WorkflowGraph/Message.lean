import WorkflowGraph.Error
import WorkflowGraph.Json.Writer
import WorkflowGraph.Record

/-!
# Conversations

An agent keeps its conversation in a field of the state, as a list of written
messages. Entries of that list that are no messages are passed over.
-/

set_option autoImplicit false

namespace WorkflowGraph

open Record

/-- The author of a message. -/
inductive Role where
  | user
  | assistant
  | system
  | tool
  deriving DecidableEq, Repr

/-- The name of a role. -/
def Role.name : Role → String
  | .user => "user"
  | .assistant => "assistant"
  | .system => "system"
  | .tool => "tool"

/-- The role with a name. -/
def Role.ofName? : String → Option Role
  | "user" => some .user
  | "assistant" => some .assistant
  | "system" => some .system
  | "tool" => some .tool
  | _ => none

/-- A call of a tool that an executor asks for. -/
structure ToolCall where
  id : String
  name : String
  arguments : Value

/-- The written form of a tool call. -/
def ToolCall.toValue (c : ToolCall) : Value :=
  .object [("arguments", c.arguments), ("id", .text c.id), ("name", .text c.name)]

/-- Read a tool call; missing arguments are null. -/
def ToolCall.ofValue? (v : Value) : Option ToolCall := do
  let get ← lookup? ["id", "name", "arguments"] v
  let id ← (get "id").bind text?
  let name ← (get "name").bind text?
  some ⟨id, name, Value.ofOption (get "arguments")⟩

/-- One entry of a conversation. -/
structure Message where
  role : Role
  content : String
  toolCallId : Option String
  toolCalls : Option (List ToolCall)

namespace Message

/-- A message of the user. -/
def user (content : String) : Message := ⟨.user, content, none, none⟩

/-- A message of the system. -/
def system (content : String) : Message := ⟨.system, content, none, none⟩

/-- A message of the assistant. -/
def assistant (content : String) : Message := ⟨.assistant, content, none, none⟩

/-- A message of the assistant that asks for tools. -/
def calling (content : String) (calls : List ToolCall) : Message :=
  ⟨.assistant, content, none, some calls⟩

/-- The answer of a tool to a call. -/
def tool (content id : String) : Message := ⟨.tool, content, some id, none⟩

/-- Whether the message asks for tools. -/
def hasToolCalls (m : Message) : Bool := m.toolCalls.any fun calls => !calls.isEmpty

/-- The written form of a message; what is not set is left out. -/
def toValue (m : Message) : Value :=
  .object <|
    [("content", .text m.content), ("role", .text m.role.name)] ++
    (match m.toolCallId with
      | none => []
      | some id => [("tool_call_id", .text id)]) ++
    (match m.toolCalls with
      | none => []
      | some calls => [("tool_calls", .list (calls.map ToolCall.toValue))])

/-- Read a message. -/
def ofValue? (v : Value) : Option Message := do
  let get ← lookup? ["role", "content", "tool_call_id", "tool_calls"] v
  let role ← ((get "role").bind choice?).bind Role.ofName?
  let content ← (get "content").bind text?
  let toolCallId ← orDefault? (optional? text?) none (get "tool_call_id")
  let toolCalls ← orDefault? (optional? (list? ToolCall.ofValue?)) none (get "tool_calls")
  some ⟨role, content, toolCallId, toolCalls⟩

/-- The messages in the content of a field. -/
def listOf : Option Value → List Message
  | some (.list items) => items.filterMap ofValue?
  | _ => []

end Message

/-- One turn of an agent, as an executor answers it. -/
structure AgentReply where
  content : String
  toolCalls : List ToolCall

namespace AgentReply

/-- Whether the turn ends the loop. -/
def isFinal (r : AgentReply) : Bool := r.toolCalls.isEmpty

/-- Read the answer to an agent's request: a text, or an object with content and tool calls. -/
def ofValue (task : String) : Value → Except TaskError AgentReply
  | .text s => .ok ⟨s, []⟩
  | .object fields =>
    let content := match Dict.get? fields "content" with
      | none => ""
      | some .null => ""
      | some v => v.display
    match Dict.get? fields "tool_calls" with
    | none => .ok ⟨content, []⟩
    | some .null => .ok ⟨content, []⟩
    | some v =>
      match list? ToolCall.ofValue? v with
      | some calls => .ok ⟨content, calls⟩
      | none => .error (.invalidResult task ("tool_calls: " ++ elided))
  | v => .error (.invalidResult task ("expected a string or an object, got " ++ Json.compact v))

end AgentReply

end WorkflowGraph
