import WorkflowGraph.Proofs.Activity.Course
import WorkflowGraph.Proofs.Compiler.Bounds
import WorkflowGraph.Record
import WorkflowGraph.Proofs.State.Merging

/-!
# Conversations of agents

An agent goes through turns (`AgentNode.Turn`): its executor hears the conversation so far and
replies, and each call of a tool in the reply is answered once. As long as the replies can be used,
every course of an attempt is such a sequence of turns, which ends with the first reply that asks
for no tool or when the limit is reached (`AgentNode.exists_of_course_converse`). What the turns
have produced is written behind the messages that are there, and messages are read back as they have
been written (`Message.ofValue?_toValue`), so that the next agent on the field hears all of them.

A text in the field is no message. An agent whose output is the field of its messages writes such a
text behind them, which the next agent passes over (`AgentNode.Recorded`).
-/

set_option autoImplicit false

namespace WorkflowGraph

open Activity

/-! ## Messages in fields -/

theorem ToolCall.ofValue?_toValue (c : ToolCall) : ToolCall.ofValue? c.toValue = some c := rfl

namespace Message

/-- **A written message is read back.** -/
theorem ofValue?_toValue (m : Message) : ofValue? m.toValue = some m := by
  obtain ⟨role, content, toolCallId, toolCalls⟩ := m
  cases toolCalls with
  | none => cases role <;> cases toolCallId <;> rfl
  | some calls =>
    have hcalls : Record.all? ToolCall.ofValue? (calls.map ToolCall.toValue) = some calls :=
      Record.all?_map ToolCall.ofValue?_toValue calls
    have hread : ofValue? (toValue ⟨role, content, toolCallId, some calls⟩) =
        ((Record.all? ToolCall.ofValue? (calls.map ToolCall.toValue)).map some).bind
          fun read => some ⟨role, content, toolCallId, read⟩ := by
      cases role <;> cases toolCallId <;> rfl
    rw [hread, hcalls, Option.map_some, Option.bind_some]

theorem filterMap_ofValue?_toValue (ms : List Message) :
    (ms.map toValue).filterMap ofValue? = ms := by
  have hread : ofValue? ∘ toValue = some := funext ofValue?_toValue
  rw [List.filterMap_map, hread, List.filterMap_some]

/-- A text is no message. -/
theorem ofValue?_text (s : String) : ofValue? (.text s) = none := rfl

end Message

/-! ## Turns -/

/-- Whether a call goes to an executor. -/
def Call.isTask : Call → Bool
  | .task _ _ => true
  | _ => false

namespace AgentNode

/-- One of the calls that a reply asks for, with the tool that the agent has under its name and the
tool's answer, if there is one. -/
structure ToolAnswer where
  call : ToolCall
  given : Option (BoundTool × Response)

/-- One turn of an agent: what its executor has answered, the reply in this answer, and what has
become of the calls that the reply asks for. -/
structure Turn where
  response : Response
  reply : AgentReply
  answers : List ToolAnswer

namespace ToolAnswer

/-- Whether the tool is the one that the agent has under the name of the call. -/
def Fits (n : AgentNode) (a : ToolAnswer) : Prop :=
  a.given.map Prod.fst = n.tools.find? fun t => t.name == a.call.name

/-- The text of the answer; a tool that the agent does not have is answered with an error. -/
def text (n : AgentNode) (a : ToolAnswer) : String :=
  match a.given with
  | none => n.unknownTool a.call.name
  | some (_, response) => answerText response.result

/-- The message that tells the answer. -/
def message (n : AgentNode) (a : ToolAnswer) : Message := .tool (a.text n) a.call.id

/-- The call that has been made for the answer, if any. -/
def exchanges (a : ToolAnswer) : List Exchange :=
  match a.given with
  | none => []
  | some (t, response) => [⟨.tool t.registered a.call.arguments, response⟩]

end ToolAnswer

/-- What an agent asks its executor when it has produced some messages so far: it sends the messages
in the field of its state, followed by these. -/
def request (n : AgentNode) (id : String) (v : Visit) (produced : List Message) : TaskRequest :=
  ⟨n.binding.task, id, variablesOf n.inputs [] v.fields, none,
    Message.listOf (Dict.get? v.fields n.messagesField) ++ produced,
    n.tools.map BoundTool.shown⟩

namespace Turn

/-- Whether a turn is one of the agent: its reply is the one in the answer of the executor, and for
every call that the reply asks for, in this order, it has an answer. -/
structure Fits (n : AgentNode) (t : Turn) : Prop where
  reply : ∃ value, t.response.result = .ok value ∧
    AgentReply.ofValue n.binding.task value = .ok t.reply
  calls : t.answers.map ToolAnswer.call = t.reply.toolCalls
  tools : ∀ a ∈ t.answers, a.Fits n

/-- The messages that a turn produces: one of the assistant, with the calls that it asks for if
there are any, and then one for each answer. -/
def messages (n : AgentNode) (t : Turn) : List Message :=
  if t.reply.isFinal then [.assistant t.reply.content]
  else .calling t.reply.content t.reply.toolCalls :: t.answers.map (ToolAnswer.message n)

/-- The calls that are made in a turn: one of the executor, which hears what has been produced
before, and then those of the tools. -/
def exchanges (n : AgentNode) (id : String) (v : Visit) (produced : List Message) (t : Turn) :
    List Exchange :=
  ⟨.task (n.binding.executor v.fallback) (n.request id v produced), t.response⟩ ::
    t.answers.flatMap ToolAnswer.exchanges

end Turn

/-- The calls that are made in a sequence of turns, each of which hears what has been produced in
those before it. -/
def exchanges (n : AgentNode) (id : String) (v : Visit) (produced : List Message)
    (turns : List Turn) : List Exchange :=
  (turns.mapIdx fun k t =>
    t.exchanges n id v (produced ++ (turns.take k).flatMap (Turn.messages n))).flatten

/-- What the last of some turns has said. -/
def lastSaid (said : String) (turns : List Turn) : String :=
  (turns.getLast?.map fun t => t.reply.content).getD said

/-- Whether a sequence of turns is a conversation of the agent with a limit on the number of turns:
all turns before the last one ask for tools, and the last one does not, unless the limit has been
reached. -/
structure Conversation (n : AgentNode) (limit : Nat) (turns : List Turn) : Prop where
  bounded : turns.length ≤ limit
  fits : ∀ t ∈ turns, t.Fits n
  goesOn : ∀ t ∈ turns.dropLast, t.reply.isFinal = false
  ends : turns.length < limit → ∃ t, turns.getLast? = some t ∧ t.reply.isFinal = true

/-- Whether an answer of an executor can be used as a reply. -/
def Usable (n : AgentNode) : Exchange → Prop
  | ⟨.task _ _, response⟩ => ∃ value reply, Response.result response = .ok value ∧
      AgentReply.ofValue n.binding.task value = .ok reply
  | _ => True

variable {n : AgentNode} {id : String} {v : Visit} {es : List Exchange}

theorem exists_usable (n : AgentNode) (c : Call) : ∃ answer, n.Usable ⟨c, answer⟩ := by
  cases c with
  | task e r => exact ⟨(⟨0, .ok (.text "")⟩ : Response), .text "", ⟨"", []⟩, rfl, rfl⟩
  | tool name arguments => exact ⟨(⟨0, .ok .null⟩ : Response), trivial⟩
  | load store thread => exact ⟨(.ok none : Except StoreError (Option Checkpoint)), trivial⟩
  | save store checkpoint => exact ⟨(.ok () : Except StoreError Unit), trivial⟩
  | delete store thread => exact ⟨(.ok () : Except StoreError Unit), trivial⟩
  | prune store thread keep => exact ⟨(.ok 0 : Except StoreError Nat), trivial⟩

/-! ## Courses are turns -/

theorem exists_of_course_answer {c : ToolCall} {text : String}
    (h : Course (n.answer c) es text) :
    ∃ a : ToolAnswer, a.call = c ∧ a.Fits n ∧ es = a.exchanges ∧ text = a.text n := by
  unfold answer at h
  split at h
  · next hnone =>
    obtain ⟨rfl, rfl⟩ := eq_of_course_pure h
    exact ⟨⟨c, none⟩, rfl, hnone.symm, rfl, rfl⟩
  · next t ht =>
    obtain ⟨front, back, result, hcall, hback, rfl⟩ := exists_of_course_bind h
    obtain ⟨response, rfl, rfl⟩ := exists_of_course_callTool hcall
    obtain ⟨rfl, rfl⟩ := eq_of_course_pure hback
    exact ⟨⟨c, some (t, response)⟩, rfl, ht.symm, rfl, rfl⟩

/-- Every call is answered once. By induction on the calls. -/
theorem exists_of_course_answers {calls : List ToolCall} {told : List Message}
    (h : Course (n.answers calls) es told) :
    ∃ answers : List ToolAnswer, answers.map ToolAnswer.call = calls ∧
      (∀ a ∈ answers, a.Fits n) ∧ es = answers.flatMap ToolAnswer.exchanges ∧
      told = answers.map (ToolAnswer.message n) := by
  induction calls generalizing es told with
  | nil =>
    obtain ⟨rfl, rfl⟩ := eq_of_course_pure h
    exact ⟨[], rfl, by simp, rfl, rfl⟩
  | cons c rest ih =>
    obtain ⟨front, back, text, hfirst, hback, rfl⟩ := exists_of_course_bind h
    obtain ⟨middle, last, more, hrest, hlast, rfl⟩ := exists_of_course_bind hback
    obtain ⟨rfl, rfl⟩ := eq_of_course_pure hlast
    obtain ⟨a, rfl, hfits, rfl, rfl⟩ := exists_of_course_answer hfirst
    obtain ⟨answers, rfl, hanswers, rfl, rfl⟩ := ih hrest
    refine ⟨a :: answers, rfl, List.forall_mem_cons.2 ⟨hfits, hanswers⟩, ?_, rfl⟩
    rw [List.append_nil, List.flatMap_cons]

theorem exchanges_cons (produced : List Message) (t : Turn) (turns : List Turn) :
    n.exchanges id v produced (t :: turns) =
      t.exchanges n id v produced ++ n.exchanges id v (produced ++ t.messages n) turns := by
  simp [exchanges, List.mapIdx_cons]

theorem lastSaid_cons (said : String) (t : Turn) (turns : List Turn) :
    lastSaid said (t :: turns) = lastSaid t.reply.content turns := by
  unfold lastSaid
  rw [List.getLast?_cons]
  cases turns.getLast? <;> rfl

theorem Conversation.nil : n.Conversation 0 [] :=
  ⟨Nat.le_refl 0, by simp, by simp, fun h => absurd h (Nat.not_lt_zero 0)⟩

/-- A reply that asks for no tool ends the conversation. -/
theorem Conversation.last {t : Turn} (limit : Nat) (ht : t.Fits n)
    (hfinal : t.reply.isFinal = true) : n.Conversation (limit + 1) [t] :=
  ⟨by simp, by simpa using ht, by simp, fun _ => ⟨t, rfl, hfinal⟩⟩

/-- Any other reply leaves a conversation with one turn less. -/
theorem Conversation.cons {limit : Nat} {t : Turn} {turns : List Turn}
    (h : n.Conversation limit turns) (ht : t.Fits n) (hfinal : t.reply.isFinal = false) :
    n.Conversation (limit + 1) (t :: turns) where
  bounded := Nat.succ_le_succ h.bounded
  fits := List.forall_mem_cons.2 ⟨ht, h.fits⟩
  goesOn := by
    cases turns with
    | nil => simp
    | cons u rest => exact List.forall_mem_cons.2 ⟨hfinal, h.goesOn⟩
  ends hlt := by
    obtain ⟨u, hu, hlast⟩ := h.ends (Nat.lt_of_succ_lt_succ hlt)
    exact ⟨u, by rw [List.getLast?_cons, hu, Option.getD_some], hlast⟩

/-- **The turns of an agent are a conversation**, as long as the replies can be used. By induction
on the turns that are left. -/
theorem exists_of_course_converse {limit : Nat} {t : Transcript}
    {result : Except TaskError Transcript}
    (h : Course (n.converse id v (Message.listOf (Dict.get? v.fields n.messagesField))
      (variablesOf n.inputs [] v.fields) t limit) es result)
    (husable : ∀ e ∈ es, n.Usable e) :
    ∃ turns, n.Conversation limit turns ∧ es = n.exchanges id v t.messages turns ∧
      result = .ok ⟨t.messages ++ turns.flatMap (Turn.messages n), lastSaid t.content turns⟩ := by
  induction limit generalizing t es with
  | zero =>
    obtain ⟨rfl, rfl⟩ := eq_of_course_pure h
    refine ⟨[], .nil, rfl, ?_⟩
    rw [List.flatMap_nil, List.append_nil]
    rfl
  | succ limit ih =>
    obtain ⟨front, back, answer, hcall, hback, rfl⟩ := exists_of_course_bind h
    obtain ⟨response, rfl, rfl⟩ := exists_of_course_callTask hcall
    obtain ⟨value, reply, hvalue, hreply⟩ := husable _ List.mem_cons_self
    rw [hvalue] at hback
    dsimp only at hback
    rw [hreply] at hback
    dsimp only at hback
    split at hback
    · next hfinal =>
      obtain ⟨rfl, rfl⟩ := eq_of_course_pure hback
      have hcalls : reply.toolCalls = [] := List.isEmpty_iff.1 hfinal
      have hfits : Turn.Fits n ⟨response, reply, []⟩ :=
        ⟨⟨value, hvalue, hreply⟩, hcalls.symm, by simp⟩
      refine ⟨[⟨response, reply, []⟩], .last limit hfits hfinal, ?_, ?_⟩
      · rw [exchanges_cons]
        rfl
      · rw [List.flatMap_singleton, Turn.messages, if_pos hfinal]
        rfl
    · next hfinal =>
      obtain ⟨middle, last, told, htold, hlast, rfl⟩ := exists_of_course_bind hback
      obtain ⟨answers, hcalls, hanswers, rfl, rfl⟩ := exists_of_course_answers htold
      have hfinal : reply.isFinal = false := by simpa using hfinal
      let turn : Turn := ⟨response, reply, answers⟩
      have hfits : turn.Fits n := ⟨⟨value, hvalue, hreply⟩, hcalls, hanswers⟩
      have hmessages : turn.messages n =
          [.calling reply.content reply.toolCalls] ++ answers.map (ToolAnswer.message n) := by
        rw [Turn.messages, if_neg (by simpa [turn] using hfinal)]
        rfl
      rw [List.append_assoc, ← hmessages] at hlast
      obtain ⟨turns, hturns, rfl, rfl⟩ := ih hlast fun e he =>
        husable e (List.mem_append_right _ (List.mem_append_right _ he))
      refine ⟨turn :: turns, hturns.cons hfits hfinal, ?_, ?_⟩
      · rw [exchanges_cons]
        rfl
      · rw [lastSaid_cons, List.flatMap_cons, List.append_assoc]

/-- The answers in the turns of an agent can be used. -/
theorem usable_of_fits {turns : List Turn} (h : ∀ t ∈ turns, t.Fits n) (produced : List Message) :
    ∀ e ∈ n.exchanges id v produced turns, n.Usable e := by
  induction turns generalizing produced with
  | nil => simp [exchanges]
  | cons t rest ih =>
    obtain ⟨hfirst, hrest⟩ := List.forall_mem_cons.1 h
    rw [exchanges_cons, List.forall_mem_append]
    refine ⟨List.forall_mem_cons.2 ⟨?_, fun e he => ?_⟩, ih hrest _⟩
    · obtain ⟨value, hvalue, hreply⟩ := hfirst.reply
      exact ⟨value, t.reply, hvalue, hreply⟩
    · obtain ⟨a, _, he⟩ := List.mem_flatMap.1 he
      unfold ToolAnswer.exchanges at he
      split at he
      · cases he
      · rw [List.mem_singleton.1 he]
        trivial

/-- What an agent writes after some turns. -/
def closing (n : AgentNode) (turns : List Turn) : Update :=
  n.update ⟨turns.flatMap (Turn.messages n), lastSaid "" turns⟩

theorem exists_of_course_behaviour {a : Attempt} (h : Course (n.behaviour id v) es a)
    (husable : ∀ e ∈ es, n.Usable e) :
    ∃ turns, n.Conversation n.maxIterations turns ∧ es = n.exchanges id v [] turns ∧
      a = .of (.ok (.proceed (n.closing turns))) := by
  obtain ⟨front, back, result, hconverse, hback, rfl⟩ := exists_of_course_bind h
  obtain ⟨rfl, rfl⟩ := eq_of_course_pure hback
  rw [List.append_nil] at husable ⊢
  obtain ⟨turns, hturns, rfl, rfl⟩ := exists_of_course_converse hconverse husable
  exact ⟨turns, hturns, rfl, rfl⟩

end AgentNode

/-- An attempt goes as the node does, or is cut off: then what has happened is the beginning of
something that the node might have done, whatever the answers are like that it would still have
got. -/
theorem NodeFrame.course_of_attempt {f : NodeFrame} {b : Behaviour} {v : Visit}
    {es : List Exchange} {a : Attempt} {P : Exchange → Prop}
    (hP : ∀ c : Call, ∃ answer, P ⟨c, answer⟩) (h : Course (f.attempt b v) es a) :
    Course (b v) es a ∨ ∃ limit, f.limit? v.scope = some limit ∧
      a = .of (.error (.timeout f.id limit)) ∧
      ∃ more full, Course (b v) (es ++ more) full ∧ ∀ e ∈ more, P e := by
  unfold attempt at h
  split at h
  · exact .inl h
  · next limit hlimit =>
    obtain ⟨front, back, ending, hfront, hback, rfl⟩ := exists_of_course_bind h
    rcases course_of_within hP hfront with
      ⟨full, left, rfl, hcourse⟩ | ⟨rfl, more, full, hcourse, hmore⟩
    · obtain ⟨rfl, rfl⟩ := eq_of_course_pure hback
      rw [List.append_nil]
      exact .inl hcourse
    · obtain ⟨rfl, rfl⟩ := eq_of_course_pure hback
      rw [List.append_nil]
      exact .inr ⟨limit, hlimit, rfl, more, full, hcourse, hmore⟩

namespace AgentNode

variable {n : AgentNode} {id : String} {v : Visit}

/-! ## What is left of a conversation -/

/-- What has become of a state in which an agent has written what some turns have produced: behind
the items of the field of its messages stand the messages, and where this field is its output as
well, the text that has last been said. Any other output has got this text. Whoever reads the field
finds the messages that were there, and then those that have been produced. -/
structure Recorded (n : AgentNode) (shape : StateShape) (turns : List Turn) (s t : State) :
    Prop where
  messages : Dict.get? t.values n.messagesField =
    some (.list ((Value.ofOption (Dict.get? s.values n.messagesField)).asList ++
      (turns.flatMap (Turn.messages n)).map Message.toValue ++
      (if n.output = some n.messagesField then [.text (lastSaid "" turns)] else [])))
  output : ∀ field, n.output = some field → field ≠ n.messagesField →
    Dict.get? t.values field =
      some ((shape.merge field).merge (Dict.get? s.values field) (.text (lastSaid "" turns)))
  heard : Message.listOf (Dict.get? t.values n.messagesField) =
    (Value.ofOption (Dict.get? s.values n.messagesField)).asList.filterMap Message.ofValue? ++
      turns.flatMap (Turn.messages n)

theorem recorded_closing {shape : StateShape} (hmerge : shape.merge n.messagesField = .append)
    (turns : List Turn) (s : State) :
    n.Recorded shape turns s (s.apply shape (n.closing turns)) := by
  have hmessages : Dict.get? (s.apply shape (n.closing turns)).values n.messagesField =
      some (.list ((Value.ofOption (Dict.get? s.values n.messagesField)).asList ++
        (turns.flatMap (Turn.messages n)).map Message.toValue ++
        (if n.output = some n.messagesField then [.text (lastSaid "" turns)] else []))) := by
    refine (Fields.get?_apply_of_append hmerge s.values (n.closing turns)).trans ?_
    unfold closing update
    cases houtput : n.output with
    | none => simp [Update.single, Update.valuesOf, accumulated, Value.contribution]
    | some field =>
      by_cases hfield : field = n.messagesField
      · simp [Update.single, Update.write, Update.valuesOf, accumulated, Value.contribution, hfield]
      · simp [Update.single, Update.write, Update.valuesOf, accumulated, Value.contribution, hfield]
  refine ⟨hmessages, fun field houtput hfield => ?_, ?_⟩
  · have hbefore : field ∉ (Update.single n.messagesField
        (.list ((turns.flatMap (Turn.messages n)).map Message.toValue))).fields := by
      simpa [Update.single, Update.fields] using hfield
    unfold State.apply closing update
    rw [houtput]
    dsimp only
    rw [Fields.get?_apply_write, Fields.get?_apply_of_not_mem hbefore]
  · rw [hmessages, Message.listOf, List.filterMap_append, List.filterMap_append,
      Message.filterMap_ofValue?_toValue]
    split
    · rw [List.filterMap_cons, Message.ofValue?_text, List.filterMap_nil, List.append_nil]
    · rw [List.filterMap_nil, List.append_nil]

/-- A turn calls the executor once. -/
theorem countP_exchanges (produced : List Message) (turns : List Turn) :
    (n.exchanges id v produced turns).countP (fun e => e.1.isTask) = turns.length := by
  induction turns generalizing produced with
  | nil => rfl
  | cons t rest ih =>
    have htools : (t.answers.flatMap ToolAnswer.exchanges).countP (fun e => e.1.isTask) = 0 := by
      refine List.countP_eq_zero.2 fun e he => ?_
      obtain ⟨a, _, he⟩ := List.mem_flatMap.1 he
      unfold ToolAnswer.exchanges at he
      split at he
      · cases he
      · rw [List.mem_singleton.1 he]
        exact Bool.false_ne_true
    rw [exchanges_cons, List.countP_append, ih, Turn.exchanges, List.countP_cons, htools]
    simp [Call.isTask, Nat.add_comm]

end AgentNode

/-- In a graph that is linked from a valid definition, the messages of an agent are appended. -/
theorem Compiler.Builds.merge_messages {c : Compiler} {d : Definition} {frame : GraphFrame}
    {nodes : List (String × GraphNode)} (h : c.Builds d frame nodes) {id : String} {f : NodeFrame}
    {n : AgentNode} (hnode : (id, GraphNode.leaf f (.agent n)) ∈ nodes) :
    frame.shape.merge n.messagesField = .append := by
  obtain ⟨-, store, below, stack, hlinked⟩ := h
  have hmem : (id, GraphNode.leaf f (.agent n)) ∈ (⟨frame, nodes⟩ : Graph).nodes := hnode
  rw [hlinked.nodes] at hmem
  obtain ⟨decl, hdecl, _, hmade⟩ := exists_of_mem_nodesOf hmem
  obtain ⟨declId, kind, options⟩ := decl
  cases compiledAs_of_nodeOf hmade with
  | agent spec houtput hmessages =>
    rw [hmessages]
    exact Definition.merge_of_declares hlinked.shape hdecl .messages

namespace AgentNode

/-- **An agent keeps a well-formed conversation.** As long as the replies of its executor can be
used, whatever else executors and tools do, an attempt goes through turns that are a conversation
with the limit of the agent: each hears the messages in the field and what the turns before it have
produced. The attempt comes to the update with what they have produced and with the last reply, or
it is cut off by a timeout and writes nothing. The executor is called once in a turn, so no more
often than the limit says. In every compiled graph, and in every one inside it, the update is
recorded behind the messages that are there. -/
theorem keeps_conversation {n : AgentNode} {f : NodeFrame} {v : Visit}
    {es : List Exchange} {a : Attempt} (hcourse : Course (f.attempt (n.behaviour f.id) v) es a)
    (husable : ∀ e ∈ es, n.Usable e) :
    ∃ turns, n.Conversation n.maxIterations turns ∧
      (es = n.exchanges f.id v [] turns ∧ a = .of (.ok (.proceed (n.closing turns))) ∨
        es <+: n.exchanges f.id v [] turns ∧ ∃ limit, f.limit? v.scope = some limit ∧
          a = .of (.error (.timeout f.id limit))) ∧
      es.countP (fun e => e.1.isTask) ≤ n.maxIterations ∧
      ∀ (c : Compiler) (g : CompiledGraph), c.Makes g →
        g.graph.Everywhere fun frame nodes =>
          ∀ id, (id, GraphNode.leaf f (.agent n)) ∈ nodes → ∀ s : State,
            n.Recorded frame.shape turns s (s.apply frame.shape (n.closing turns)) := by
  have hrecorded (turns : List Turn) (c : Compiler) (g : CompiledGraph) (hg : c.Makes g) :
      g.graph.Everywhere fun frame nodes =>
        ∀ id, (id, GraphNode.leaf f (.agent n)) ∈ nodes → ∀ s : State,
          n.Recorded frame.shape turns s (s.apply frame.shape (n.closing turns)) := by
    refine hg.builds.2.mono fun frame nodes hbuilds id hnode s => ?_
    obtain ⟨d, hbuilt⟩ := hbuilds
    exact recorded_closing (hbuilt.merge_messages hnode) turns s
  rcases NodeFrame.course_of_attempt n.exists_usable hcourse with
    hdone | ⟨limit, hlimit, rfl, more, full, hfull, hmore⟩
  · obtain ⟨turns, hturns, rfl, rfl⟩ := exists_of_course_behaviour hdone husable
    refine ⟨turns, hturns, .inl ⟨rfl, rfl⟩, ?_, hrecorded turns⟩
    rw [countP_exchanges]
    exact hturns.bounded
  · obtain ⟨turns, hturns, hes, -⟩ := exists_of_course_behaviour hfull
      (List.forall_mem_append.2 ⟨husable, hmore⟩)
    have hfront : es <+: n.exchanges f.id v [] turns := ⟨more, hes⟩
    refine ⟨turns, hturns, .inr ⟨hfront, limit, hlimit, rfl⟩, ?_, hrecorded turns⟩
    refine (hfront.sublist.countP_le).trans ?_
    rw [countP_exchanges]
    exact hturns.bounded

end AgentNode

/-! ## Two agents -/

/-- An agent with a clock, which answers in the field `answer`. -/
def clockAgent : AgentNode where
  binding := ⟨"talk", ⟨"only", none⟩, none⟩
  tools := [⟨⟨"clock", "", .null⟩, "clock"⟩]
  inputs := []
  maxIterations := 3
  messagesField := "messages"
  output := some "answer"

/-- Its frame. -/
def clockFrame : NodeFrame := ⟨"ask", some "answer", ⟨.fail, none, none, ["answer"], []⟩⟩

/-- A first visit in the blank state. -/
def firstVisit : Visit := ⟨.blank, ⟨"t", .standard⟩, none, false⟩

/-- A reply that asks for the time, and for the weather, for which the agent has no tool. -/
def askingReply : AgentReply := ⟨"One moment.", [⟨"1", "clock", .null⟩, ⟨"2", "weather", .null⟩]⟩

/-- The answer of an executor with this reply. -/
def askingResponse : Response :=
  ⟨0, .ok (.object [("content", .text askingReply.content),
    ("tool_calls", .list (askingReply.toolCalls.map ToolCall.toValue))])⟩

/-- A host that asks first. It remembers how often its executor has been called. -/
def clockHost : Host Nat where
  task asked _ _ :=
    (if asked = 0 then askingResponse else ⟨0, .ok (.text "It is noon.")⟩, asked + 1)
  tool asked _ _ := (⟨0, .ok (.text "noon")⟩, asked)

/-- The two turns that the agent goes through. -/
def clockTurns : List AgentNode.Turn :=
  [{ response := askingResponse
     reply := askingReply
     answers := [⟨⟨"1", "clock", .null⟩,
        some (⟨⟨"clock", "", .null⟩, "clock"⟩, ⟨0, .ok (.text "noon")⟩)⟩,
      ⟨⟨"2", "weather", .null⟩, none⟩] },
    { response := ⟨0, .ok (.text "It is noon.")⟩
      reply := ⟨"It is noon.", []⟩
      answers := [] }]

/-- An attempt of the agent on this host. -/
def clockAttempt : Activity Attempt :=
  clockFrame.attempt (clockAgent.behaviour clockFrame.id) firstVisit

/-- The agent with the clock asks its executor twice, and the clock once in between. -/
theorem clock_agent_converses :
    ∃ turns, clockAgent.Conversation 3 turns ∧
      (clockAttempt.events clockHost (.initial 0 .empty)).map (exchanged clockHost) =
        clockAgent.exchanges "ask" firstVisit [] turns ∧
      (clockAttempt.run clockHost (.initial 0 .empty)).1 =
        .of (.ok (.proceed (clockAgent.closing turns))) ∧
      (clockAttempt.run clockHost (.initial 0 .empty)).1 =
        .of (.ok (.proceed ⟨[("messages", .list [
          (Message.calling "One moment." askingReply.toolCalls).toValue,
          (Message.tool "noon" "1").toValue,
          (Message.tool
            "Error: Tool 'weather' is not available. Available tools: [\"clock\"]" "2").toValue,
          (Message.assistant "It is noon.").toValue]),
          ("answer", .text "It is noon.")]⟩)) := by
  have hes : (clockAttempt.events clockHost (.initial 0 .empty)).map (exchanged clockHost) =
      clockAgent.exchanges "ask" firstVisit [] clockTurns := by
    with_unfolding_all rfl
  have hfits : ∀ t ∈ clockTurns, t.Fits clockAgent := by
    refine List.forall_mem_cons.2 ⟨⟨⟨_, rfl, by with_unfolding_all rfl⟩, rfl, ?_⟩,
      List.forall_mem_singleton.2 ⟨⟨_, rfl, rfl⟩, rfl, by simp⟩⟩
    exact List.forall_mem_cons.2 ⟨by with_unfolding_all rfl,
      List.forall_mem_singleton.2 (by with_unfolding_all rfl)⟩
  have husable :
      ∀ e ∈ (clockAttempt.events clockHost (.initial 0 .empty)).map (exchanged clockHost),
        clockAgent.Usable e := by
    rw [hes]
    exact AgentNode.usable_of_fits hfits []
  obtain ⟨turns, hturns, ⟨hall, hresult⟩ | ⟨_, limit, hlimit, _⟩, _⟩ :=
    AgentNode.keeps_conversation (f := clockFrame)
      (course_run clockHost (.initial 0 .empty) clockAttempt) husable
  · exact ⟨turns, hturns, hall, hresult, by with_unfolding_all rfl⟩
  · cases hlimit

/-! ## An agent whose output is its conversation -/

/-- An agent that writes its output to the field of its messages. -/
def greeting : Definition where
  version := none
  name := "greeting"
  description := none
  entry := none
  defaults := .standard
  tools := []
  nodes := [⟨"ask", .agent ⟨"talk", [], none, none, []⟩,
    { NodeOptions.unset with output := some "messages", merge := some .append }⟩]
  edges := [⟨"ask", .one "END", none⟩]
  loopLimits := []
  checkpoint := none

/-- The agent in the graph that it is compiled to. -/
def greetingAgent : AgentNode where
  binding := ⟨"talk", ⟨"only", none⟩, none⟩
  tools := []
  inputs := []
  maxIterations := 10
  messagesField := "messages"
  output := some "messages"

/-- The graph that it is compiled to. -/
def greetingGraph : Graph where
  frame :=
    { name := "greeting"
      table := ⟨"ask", [("ask", .direct .finish)], [], []⟩
      shape := ⟨[("messages", ⟨.list, .append, ["ask"], .output⟩)]⟩
      config := .standard
      store := none }
  nodes := [("ask", .leaf ⟨"ask", some "messages", ⟨.fail, none, none, ["messages"], []⟩⟩
    (.agent greetingAgent))]

/-- A host whose executor says hello. -/
def greetingHost : Host Unit where
  task _ _ _ := (⟨0, .ok (.text "hello")⟩, ())
  tool _ _ _ := (⟨0, .ok .null⟩, ())

/-- The run starts without messages, and one is produced; but the field does not hold a list of
messages in the end, since the text of the reply stands behind the one. -/
theorem greeting_keeps_text_behind_messages :
    oneExecutor.assemble none 1 .empty greeting = .ok greetingGraph ∧
      ∃ s, ((greetingGraph.run (.object []) "t").run greetingHost (.initial () .empty)).1 =
        .complete s ∧
        Dict.get? s.values "messages" =
          some (.list [(Message.assistant "hello").toValue, .text "hello"]) ∧
        ¬∃ produced : List Message,
          Dict.get? s.values "messages" = some (.list (produced.map Message.toValue)) := by
  have hrun : ∃ s, ((greetingGraph.run (.object []) "t").run greetingHost (.initial () .empty)).1 =
      .complete s ∧ Dict.get? s.values "messages" =
        some (.list [(Message.assistant "hello").toValue, .text "hello"]) :=
    ⟨_, by with_unfolding_all rfl, by with_unfolding_all rfl⟩
  obtain ⟨s, hs, hmessages⟩ := hrun
  refine ⟨by with_unfolding_all rfl, s, hs, hmessages, ?_⟩
  rintro ⟨produced, hproduced⟩
  rw [hmessages, Option.some.injEq, Value.list.injEq] at hproduced
  have htext : Value.text "hello" ∈ produced.map Message.toValue := by
    rw [← hproduced]
    exact List.mem_cons_of_mem _ List.mem_cons_self
  obtain ⟨m, _, hm⟩ := List.mem_map.1 htext
  cases hm

end WorkflowGraph
