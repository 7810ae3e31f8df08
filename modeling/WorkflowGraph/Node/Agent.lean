import WorkflowGraph.Node.Transform
import WorkflowGraph.Text.Quoted

/-!
# Agents

An agent sends its conversation to an executor. Where the reply asks for tools, it calls
them in their order, adds their answers to the conversation, and sends it again; a reply
that asks for no tool ends the loop, and so does the limit on the number of turns. Only
the messages of this loop are written back, behind those that the field holds already.
-/

set_option autoImplicit false

namespace WorkflowGraph

/-- An agent. -/
structure AgentNode where
  binding : TaskBinding
  tools : List BoundTool
  inputs : Dict String
  maxIterations : Nat
  messagesField : String
  output : Option String

namespace AgentNode

/-- The answer to a call of a tool that the agent does not have. -/
def unknownTool (n : AgentNode) (name : String) : String :=
  "Error: Tool '" ++ name ++ "' is not available. Available tools: " ++
    Text.quotedList (n.tools.map BoundTool.name)

/-- The text that a tool's answer has in the conversation. -/
def answerText : Except TaskError Value → String
  | .ok v => v.display
  | .error e => "Error: " ++ e.message

/-- Make one of the calls that a reply asks for. -/
def answer (n : AgentNode) (c : ToolCall) : Activity String :=
  match n.tools.find? fun t => t.name == c.name with
  | none => pure (n.unknownTool c.name)
  | some t => do
    let result ← Activity.callTool t c.arguments
    pure (answerText result)

/-- The messages with the answers to a list of calls. -/
def answers (n : AgentNode) : List ToolCall → Activity (List Message)
  | [] => pure []
  | c :: rest => do
    let text ← n.answer c
    let more ← n.answers rest
    pure (Message.tool text c.id :: more)

/-- The end of a loop: the messages that it has added and the content of the last reply. -/
structure Transcript where
  messages : List Message
  content : String

/-- Take up to `turns` further turns. -/
def converse (n : AgentNode) (id : String) (v : Visit) (history : List Message)
    (values : Fields) (t : Transcript) : (turns : Nat) → Activity (Except TaskError Transcript)
  | 0 => pure (.ok t)
  | turns + 1 => do
    let request : TaskRequest :=
      ⟨n.binding.task, id, values, none, history ++ t.messages, n.tools.map BoundTool.shown⟩
    match ← n.binding.call v request with
    | .error e => pure (.error e)
    | .ok value =>
      match AgentReply.ofValue n.binding.task value with
      | .error e => pure (.error e)
      | .ok reply =>
        if reply.isFinal then
          pure (.ok ⟨t.messages ++ [.assistant reply.content], reply.content⟩)
        else do
          let told ← n.answers reply.toolCalls
          let messages := t.messages ++ [.calling reply.content reply.toolCalls] ++ told
          n.converse id v history values ⟨messages, reply.content⟩ turns

/-- The update that a loop ends with. -/
def update (n : AgentNode) (t : Transcript) : Update :=
  let messages := Update.single n.messagesField (.list (t.messages.map Message.toValue))
  match n.output with
  | none => messages
  | some field => messages.write field (.text t.content)

/-- What an agent does. -/
def behaviour (n : AgentNode) (id : String) : Behaviour := fun v => do
  let history := Message.listOf (Dict.get? v.fields n.messagesField)
  let values := variablesOf n.inputs [] v.fields
  let result ← n.converse id v history values ⟨[], ""⟩ n.maxIterations
  pure (.of (result.map fun t => .proceed (n.update t)))

end AgentNode

end WorkflowGraph
