import ZenZip.Lib.JsValue
import ZenZip.Lib.JsonInteger
import ZenZip.Lib.Text
import ZenZip.Sdk.Sse
import ZenZip.Sdk.TextDecoder

namespace ZenZip.Mcp

open Lib JsonText
open Js (prop truthy carried)

section Values

/-- `v ?? d`. -/
def orElse (v : Option JsonValue) (d : JsonValue) : JsonValue :=
  match v with
  | none | some .null => d
  | some v => v

def text (s : String) : JsonValue := .string s.toList

def integerOf (n : Int) : JsonValue := .number n.repr.toList

def object (fs : List (String × JsonValue)) : JsonValue :=
  .object (fs.map (fun f => (f.1.toList, f.2)))

end Values

/-- The effect of a call on what the app keeps, and what comes of it: an error has a message, and a
value may be missing. -/
abbrev Effect (σ A : Type) := σ → Except (List Char) A × σ

structure Workflow (σ : Type) where
  name : List Char
  trigger : JsonValue → Effect σ (Option JsonValue)
  triggerAndWait : JsonValue → (timeoutMs : Nat) → Effect σ (Option JsonValue)

structure AgentResult where
  output : Option JsonValue
  text : List Char

structure Agent (σ : Type) where
  name : List Char
  instructions : Option (List Char)
  run : List Char → Effect σ AgentResult

/-- What an app has registered; a name is registered once. -/
structure Registry (σ : Type) where
  workflows : List (Workflow σ)
  agents : List (Agent σ)
  workflow_names : (workflows.map (·.name)).Nodup
  agent_names : (agents.map (·.name)).Nodup

inductive Selection
  | all (on : Bool)
  | only (names : List (List Char))

inductive Wait
  | timeout (ms : Nat)
  | off

structure ServerOptions where
  workflows : Option Selection := none
  agents : Option Selection := none
  wait : Option Wait := none
  token : Option (List Char) := none
  name : Option (List Char) := none

structure Tool (σ : Type) where
  name : List Char
  description : List Char
  inputSchema : JsonValue
  invoke : JsonValue → Effect σ (Option JsonValue)

section Server

variable {σ : Type}

def selected (mode : Option Selection) (name : List Char) : Bool :=
  match mode.getD (.all true) with
  | .all on => on
  | .only names => names.contains name

/-- The workflows of agents are hidden. -/
def Registry.listWorkflows (app : Registry σ) : List (Workflow σ) :=
  app.workflows.filter (fun w => !"agent:".toList.isPrefixOf w.name)

def workflowTool (o : ServerOptions) (wf : Workflow σ) : Tool σ where
  name := wf.name
  description :=
    "Run the \"".toList ++ wf.name ++
      "\" workflow durably. Arguments are the workflow input.".toList
  inputSchema := object [("type", text "object")]
  invoke args :=
    match o.wait with
    | some .off => wf.trigger args
    | some (.timeout ms) => wf.triggerAndWait args ms
    | none => wf.triggerAndWait args 60000

def agentTool (agent : Agent σ) : Tool σ where
  name := agent.name
  description :=
    (agent.instructions.map (Text.sliceUnits 200)).getD
      ("Run the \"".toList ++ agent.name ++ "\" agent.".toList)
  inputSchema := object [("type", text "object"),
    ("properties",
      object [("message",
        object [("type", text "string"), ("description", text "The task or question.")])]),
    ("required", .array [text "message"])]
  invoke args s :=
    match Js.text (orElse (prop args "message".toList) (text "")) with
    | none => (.error Js.unrenderable, s)
    | some message =>
        match agent.run message s with
        | (.ok result, s') => (.ok (some (orElse result.output (.string result.text))), s')
        | (.error e, s') => (.error e, s')

/-- A workflow wins over an agent of the same name. -/
def buildTools (app : Registry σ) (o : ServerOptions) : List (Tool σ) :=
  let flows :=
    (app.listWorkflows.filter (fun w => selected o.workflows w.name)).map (workflowTool o)
  flows ++ (app.agents.filter
    (fun a => selected o.agents a.name && flows.all (fun t => t.name ≠ a.name))).map agentTool

structure Request where
  method : List Char
  authorization : Option (List Char)
  session : Option (List Char)
  body : List Char

structure Response where
  status : Nat
  contentType : List Char
  session : Option (List Char)
  body : List Char

def authorized (o : ServerOptions) (authorization : Option (List Char)) : Bool :=
  match o.token.filter (· ≠ []) with
  | none => true
  | some token =>
      match ((authorization.filter (fun h => "Bearer ".toList.isPrefixOf h)).map (·.drop 7)).filter
        (· ≠ []) with
      | none => false
      | some provided =>
          (bufferFrom token).length = (bufferFrom provided).length ∧
            bufferFrom token = bufferFrom provided

def send (status : Nat) (body : JsonValue) : Response :=
  ⟨status, "application/json".toList, some "zenzip".toList, Js.stringify body⟩

def envelope (id : Option JsonValue) (k : String) (v : JsonValue) : JsonValue :=
  .object ([("jsonrpc".toList, text "2.0")] ++
    (id.map (fun v => ("id".toList, v))).toList ++ [(k.toList, v)])

def rpc (id : Option JsonValue) (result : JsonValue) : Response :=
  send 200 (envelope id "result" result)

def rpcError (id : Option JsonValue) (code : Int) (message : List Char) : Response :=
  send 200 (envelope id "error" (object [("code", integerOf code), ("message", .string message)]))

/-- `typeof out === "string" ? out : JSON.stringify(out ?? null)`. -/
def outText (out : Option JsonValue) : List Char :=
  match orElse out .null with
  | .string s => s
  | v => Js.stringify v

def textContent (s : List Char) : String × JsonValue :=
  ("content", .array [object [("type", text "text"), ("text", .string s)]])

def toolEntry (t : Tool σ) : JsonValue :=
  object [("name", .string t.name), ("description", .string t.description),
    ("inputSchema", t.inputSchema)]

/-- `msg.params?.name ? tools.get(msg.params.name) : undefined`. -/
def findTool (tools : List (Tool σ)) (name : Option JsonValue) : Option (Tool σ) :=
  match name with
  | some (.string n) => if n = [] then none else tools.find? (fun t => t.name = n)
  | _ => none

/-- `none` is for a handler that throws: then nobody answers. -/
def answer (tools : List (Tool σ)) (serverName : List Char) (msg : JsonValue) (method : List Char) :
    σ → Option Response × σ := fun s =>
  let id := prop msg "id".toList
  let params := prop msg "params".toList
  if method = "initialize".toList then
    (some (rpc id (object [("protocolVersion", text "2025-06-18"),
      ("capabilities", object [("tools", object [])]),
      ("serverInfo", object [("name", .string serverName), ("version", text "1")])])), s)
  else if method = "notifications/initialized".toList then (some ⟨202, [], none, []⟩, s)
  else if method = "tools/list".toList then
    (some (rpc id (object [("tools", .array (tools.map toolEntry))])), s)
  else if method = "tools/call".toList then
    let name := params.bind (prop · "name".toList)
    match findTool tools name with
    | none =>
        -- the name is rendered outside the `try`
        (((name.map Js.text).getD (some "undefined".toList)).map (fun n =>
          rpcError id (-32602) ("unknown tool: ".toList ++ n)), s)
    | some tool =>
        match tool.invoke (orElse (params.bind (prop · "arguments".toList)) (.object [])) s with
        | (.ok out, s') => (some (rpc id (object [textContent (outText out)])), s')
        | (.error e, s') => (some (rpc id (object [textContent e, ("isError", .bool true)])), s')
  else (some (rpcError id (-32601) ("method not found: ".toList ++ method)), s)

/-- The handler of `buildMcpHandler(app, options)`. A body that is no JSON is a text, which has no
method. -/
def handle (app : Registry σ) (o : ServerOptions) (req : Request) : σ → Option Response × σ :=
  fun s =>
  if req.method ≠ "POST".toList then
    (some (send 405 (object [("error", text "method not allowed")])), s)
  else if authorized o req.authorization = false then
    (some (send 401 (object [("error", text "unauthorized")])), s)
  else
    match (Js.parse req.body).bind
        (fun msg => (prop msg "method".toList).map (fun m => (msg, m))) with
    | some (msg, .string method) =>
        answer (buildTools app o) (o.name.getD "zenzip".toList) msg method s
    | _ => (some (send 400 (object [("error", text "invalid JSON-RPC request")])), s)

end Server

section Client

variable {σ : Type}

structure McpOptions where
  authorization : Option (List Char) := none
  namePrefix : Option (List Char) := none

/-- The counter of ids and the session. -/
structure HttpClient where
  id : Nat
  session : Option (List Char)

/-- What a call throws: an error of its own, what `JSON.parse` throws, or a `TypeError`. -/
inductive McpError
  | error (message : List Char)
  | syntaxError
  | typeError

/-- `fetch`; a server that does not answer has it reject. -/
abbrev Transport (σ : Type) := Request → σ → Option Response × σ

abbrev ClientCall (σ A : Type) := HttpClient × σ → Except McpError A × (HttpClient × σ)

def replyError (method : List Char) (e : JsonValue) : McpError :=
  match ((prop e "message".toList).map Js.text).getD (some "undefined".toList) with
  | some message => .error ("MCP ".toList ++ method ++ ": ".toList ++ message)
  | none => .typeError

def reply (method : List Char) (res : Response) : Except McpError JsonValue :=
  if ¬(200 ≤ res.status ∧ res.status < 300) then
    .error (.error ("MCP ".toList ++ method ++ ": HTTP ".toList ++ res.status.repr.toList))
  else
    match
      if "text/event-stream".toList <:+: res.contentType then
        (firstSseMessage res.body).map Js.value
      else Js.parse res.body with
    | none => .error .syntaxError
    | some .null => .error .typeError
    | some msg =>
        match (prop msg "error".toList).filter truthy with
        | some e => .error (replyError method e)
        | none => .ok msg

variable (transport : Transport σ) (o : McpOptions)

def HttpClient.send (method : List Char) (params : JsonValue) : ClientCall σ JsonValue :=
  fun (c, s) =>
  match transport
    ⟨"POST".toList, o.authorization, c.session,
      Js.stringify (object [("jsonrpc", text "2.0"), ("id", integerOf (c.id + 1)),
        ("method", .string method), ("params", params)])⟩ s with
  | (none, s') => (.error .typeError, (⟨c.id + 1, c.session⟩, s'))
  | (some res, s') =>
      (reply method res, (⟨c.id + 1, (res.session.filter (· ≠ [])).or c.session⟩, s'))

/-- What the notification is answered with makes no difference. -/
def HttpClient.notify (method : List Char) : HttpClient × σ → HttpClient × σ := fun (c, s) =>
  (c, (transport ⟨"POST".toList, o.authorization, c.session,
    Js.stringify (object [("jsonrpc", text "2.0"), ("method", .string method)])⟩ s).2)

def HttpClient.initialize (st : HttpClient × σ) : Except McpError Unit × (HttpClient × σ) :=
  match HttpClient.send transport o "initialize".toList
    (object [("protocolVersion", text "2025-06-18"), ("capabilities", object []),
    ("clientInfo", object [("name", text "zenzip"), ("version", text "0")])]) st with
  | (.error e, st') => (.error e, st')
  | (.ok _, st') => (.ok (), HttpClient.notify transport o "notifications/initialized".toList st')

def HttpClient.listTools (st : HttpClient × σ) :
    Except McpError (List JsonValue) × (HttpClient × σ) :=
  match HttpClient.send transport o "tools/list".toList (object []) st with
  | (.error e, st') => (.error e, st')
  | (.ok msg, st') =>
      match orElse ((prop msg "result".toList).bind (prop · "tools".toList)) (.array []) with
      | .array defs => (.ok defs, st')
      | _ => (.error .typeError, st')

def contentItem (c : JsonValue) : Option (List Char) :=
  match prop c "text".toList with
  | some v => Js.text v
  | none => some (Js.stringify c)

def contentToString (content : Option JsonValue) : Option (List Char) :=
  match orElse content .null with
  | .array cs => (cs.mapM contentItem).map ['\n'].intercalate
  | .string s => some s
  | v => some (Js.stringify v)

def HttpClient.callTool (name : List Char) (args : JsonValue) (st : HttpClient × σ) :
    Except McpError (List Char) × (HttpClient × σ) :=
  match HttpClient.send transport o "tools/call".toList
    (object [("name", .string name), ("arguments", args)]) st with
  | (.error e, st') => (.error e, st')
  | (.ok msg, st') =>
      match contentToString ((prop msg "result".toList).bind (prop · "content".toList)) with
      | some content => (.ok content, st')
      | none => (.error .typeError, st')

/-- A tool for an agent; it calls the tool `target` of the server. -/
structure AgentTool where
  name : List Char
  description : List Char
  parameters : JsonValue
  target : List Char

/-- A tool of the list has a name, and its description is a text. -/
def agentToolOf (d : JsonValue) : Option AgentTool :=
  match prop d "name".toList with
  | some (.string name) => some {
      name := (o.namePrefix.filter (· ≠ [])).getD [] ++ name
      description :=
        match orElse (prop d "description".toList) .null with
        | .string s => s
        | _ => "MCP tool ".toList ++ name
      parameters := orElse (prop d "inputSchema".toList) (object [("type", text "object")])
      target := name }
  | _ => none

def mcp (s : σ) : Except McpError (List AgentTool) × (HttpClient × σ) :=
  match HttpClient.initialize transport o (⟨0, none⟩, s) with
  | (.error e, st) => (.error e, st)
  | (.ok _, st) =>
      match HttpClient.listTools transport o st with
      | (.error e, st') => (.error e, st')
      | (.ok defs, st') =>
          match defs.mapM (agentToolOf o) with
          | some tools => (.ok tools, st')
          | none => (.error .typeError, st')

end Client

section Values

variable {v w : JsonValue}

theorem reply_send {method : List Char} (hne : carried v ≠ .null)
    (herror : prop v "error".toList = none) :
    reply method (send 200 v) = .ok (carried v) := by
  have hjson : ¬("text/event-stream".toList <:+: (send 200 v).contentType) := by
    show ¬("text/event-stream".toList <:+: "application/json".toList)
    decide
  have hok : ¬¬(200 ≤ (send 200 v).status ∧ (send 200 v).status < 300) := by simp [send]
  have hparse : Js.parse (send 200 v).body = some (carried v) := Js.parse_stringify v
  have hnone : prop (carried v) "error".toList = none := by
    rw [Js.prop_carried, herror, Option.map_none]
  rw [reply, if_neg hok, if_neg hjson, hparse]
  cases hc : carried v with
  | null => exact absurd hc hne
  | bool | number | string | array | object =>
      rw [hc] at hnone
      dsimp only
      rw [hnone]
      rfl

theorem prop_object (fs : List (String × JsonValue)) (k : String) :
    prop (object fs) k.toList = (fs.reverse.find? (fun f => f.1 = k)).map (·.2) := by
  rw [object, prop, ← List.map_reverse, List.find?_map, Option.map_map]
  have hkey : (fun f : List Char × JsonValue => decide (f.1 = k.toList)) ∘
      (fun f : String × JsonValue => (f.1.toList, f.2)) = fun f => decide (f.1 = k) := by
    funext f
    exact decide_eq_decide.mpr String.toList_inj
  rw [hkey]
  rfl

theorem envelope_some (id v : JsonValue) (k : String) :
    envelope (some id) k v = object [("jsonrpc", text "2.0"), ("id", id), (k, v)] := rfl

theorem reply_rpc {method : List Char} (v w : JsonValue) :
    reply method (rpc (some v) w) = .ok (carried (envelope (some v) "result" w)) := by
  apply reply_send
  · exact fun h => by cases h
  · rw [envelope_some, prop_object]
    rfl

end Values

section Tools

variable {σ : Type} {app : Registry σ} {o : ServerOptions} {t : Tool σ}

theorem carried_inputSchema (ht : t ∈ buildTools app o) :
    carried t.inputSchema = t.inputSchema ∧ ∃ fs, t.inputSchema = .object fs := by
  rcases List.mem_append.mp ht with ht | ht
  · obtain ⟨wf, _, rfl⟩ := List.mem_map.mp ht
    exact ⟨rfl, _, rfl⟩
  · obtain ⟨agent, _, rfl⟩ := List.mem_map.mp ht
    exact ⟨rfl, _, rfl⟩

theorem nodup_buildTools (app : Registry σ) (o : ServerOptions) :
    ((buildTools app o).map (·.name)).Nodup := by
  rw [buildTools, List.map_append, List.nodup_append]
  refine ⟨?_, ?_, ?_⟩
  · rw [List.map_map]
    refine app.workflow_names.sublist (List.Sublist.map _ ?_)
    exact List.filter_sublist.trans List.filter_sublist
  · rw [List.map_map]
    exact app.agent_names.sublist (List.Sublist.map _ List.filter_sublist)
  · intro name hflows name' hagents
    rintro rfl
    obtain ⟨flow, hflow, rfl⟩ := List.mem_map.mp hflows
    obtain ⟨tool, htool, hname⟩ := List.mem_map.mp hagents
    obtain ⟨agent, hagent, rfl⟩ := List.mem_map.mp htool
    have hfree := (List.mem_filter.mp hagent).2
    rw [Bool.and_eq_true, List.all_eq_true] at hfree
    exact of_decide_eq_true (hfree.2 flow hflow) hname.symm

end Tools

section EndToEnd

variable {σ : Type} {app : Registry σ} {o : ServerOptions} {opts : McpOptions} {c : HttpClient}
  {s : σ} {t : Tool σ}
  {method : List Char} {params args : JsonValue}

def requested (id : Nat) (method : List Char) (params : JsonValue) : JsonValue :=
  object [("jsonrpc", text "2.0"), ("id", integerOf (id + 1)), ("method", .string method),
    ("params", params)]

theorem prop_requested_id (id : Nat) :
    prop (carried (requested id method params)) "id".toList = some
      (carried (integerOf (id + 1))) := by
  rw [Js.prop_carried, requested, prop_object]
  rfl

theorem prop_requested_params (id : Nat) :
    prop (carried (requested id method params)) "params".toList = some (carried params) := by
  rw [Js.prop_carried, requested, prop_object]
  rfl

theorem send_handle (hauth : authorized o opts.authorization = true) {res : Response} {s' : σ}
    (hanswer : answer (buildTools app o) (o.name.getD "zenzip".toList)
      (carried (requested c.id method params)) method s =
      (some res, s')) :
    HttpClient.send (handle app o) opts method params (c, s) =
      (reply method res, (⟨c.id + 1, (res.session.filter (· ≠ [])).or c.session⟩, s')) := by
  have hmethod : prop (carried (requested c.id method params)) "method".toList =
    some (.string method) := by
    rw [Js.prop_carried, requested, prop_object]
    rfl
  have hhandle : handle app o
    ⟨"POST".toList, opts.authorization, c.session, Js.stringify (requested c.id method params)⟩ s =
      (some res, s') := by
    rw [handle, if_neg (by simp), if_neg (by simp [hauth]), Js.parse_stringify, Option.bind_some,
      hmethod]
    exact hanswer
  rw [requested] at hhandle
  rw [HttpClient.send, hhandle]

def clientTool (opts : McpOptions) (t : Tool σ) : AgentTool :=
  ⟨(opts.namePrefix.filter (· ≠ [])).getD [] ++ t.name, t.description, t.inputSchema, t.name⟩

theorem agentToolOf_toolEntry (ht : t ∈ buildTools app o) :
    agentToolOf opts (carried (toolEntry t)) = some (clientTool opts t) := by
  obtain ⟨hcarried, fs, hschema⟩ := carried_inputSchema ht
  have hname : prop (carried (toolEntry t)) "name".toList = some (.string t.name) := by
    rw [Js.prop_carried, toolEntry, prop_object]
    rfl
  have hdescription : prop (carried (toolEntry t)) "description".toList =
    some (.string t.description) := by
    rw [Js.prop_carried, toolEntry, prop_object]
    rfl
  have hparameters : prop (carried (toolEntry t)) "inputSchema".toList = some (.object fs) := by
    rw [← hschema, ← hcarried, Js.prop_carried, toolEntry, prop_object]
    rfl
  rw [agentToolOf, hname, hdescription, hparameters, clientTool, hschema]
  rfl

theorem mapM_toolEntry {ts : List (Tool σ)} (h : ∀ t ∈ ts, t ∈ buildTools app o) :
    ((ts.map toolEntry).map carried).mapM (agentToolOf opts) = some (ts.map (clientTool opts)) := by
  induction ts with
  | nil => rfl
  | cons t ts ih =>
      rw [List.map_cons, List.map_cons, List.mapM_cons,
        agentToolOf_toolEntry (h t List.mem_cons_self),
        ih fun u hu => h u (List.mem_cons_of_mem t hu)]
      rfl

/-- What `tool.invoke` comes to, for the one who asked. -/
def outcome : Except (List Char) (Option JsonValue) → List Char
  | .ok out => outText out
  | .error e => e

/-- A result of a tool is its text, and perhaps a flag that tells an error. -/
def Flags (more : List (String × JsonValue)) : Prop := more = [] ∨ more = [("isError", .bool true)]

theorem contentItem_text (x : List Char) :
    contentItem (carried (object [("type", text "text"), ("text", .string x)])) = some x := by
  have htext : prop (carried (object [("type", text "text"), ("text", .string x)])) "text".toList =
    some (.string x) := by
    rw [Js.prop_carried, prop_object]
    rfl
  rw [contentItem, htext]
  rfl

theorem prop_result (id v : JsonValue) :
    prop (carried (envelope (some id) "result" v)) "result".toList = some (carried v) := by
  rw [Js.prop_carried, envelope_some, prop_object]
  rfl

theorem contentToString_textContent (id : JsonValue) (x : List Char)
    {more : List (String × JsonValue)} (h : Flags more) :
    contentToString
      ((prop (carried (envelope (some id) "result" (object (textContent x :: more))))
        "result".toList).bind
      (prop · "content".toList)) = some x := by
  have hcontent : prop (object (textContent x :: more)) "content".toList =
      some (.array [object [("type", text "text"), ("text", .string x)]]) := by
    rw [prop_object]
    rcases h with rfl | rfl
    · rfl
    · rfl
  rw [prop_result, Option.bind_some, Js.prop_carried, hcontent, Option.map_some, Js.carried_array]
  show (([carried (object [("type", text "text"), ("text", .string x)])].mapM
    contentItem).map ['\n'].intercalate) = some x
  rw [List.mapM_cons, contentItem_text]
  show some (['\n'].intercalate [x]) = some x
  rw [List.intercalate_singleton]

theorem notify_handle (hauth : authorized o opts.authorization = true) :
    HttpClient.notify (handle app o) opts "notifications/initialized".toList (c, s) = (c, s) := by
  have hmethod : prop
    (carried (object [("jsonrpc", text "2.0"),
      ("method", .string "notifications/initialized".toList)]))
      "method".toList = some (.string "notifications/initialized".toList) := by
    rw [Js.prop_carried, prop_object]
    rfl
  rw [HttpClient.notify, handle, if_neg (by simp), if_neg (by simp [hauth]), Js.parse_stringify,
    Option.bind_some, hmethod]
  dsimp only [Option.map_some]
  rw [answer, if_neg (by simp), if_pos rfl]

theorem initialize_handle (hauth : authorized o opts.authorization = true) :
    ∃ c', HttpClient.initialize (handle app o) opts (c, s) = (.ok (), (c', s)) := by
  have hanswer (params : JsonValue) : ∃ result,
    answer (buildTools app o) (o.name.getD "zenzip".toList)
      (carried (requested c.id "initialize".toList params)) "initialize".toList s =
        (some (rpc (some (carried (integerOf (c.id + 1)))) result), s) := by
    rw [answer, if_pos rfl, prop_requested_id]
    exact ⟨_, rfl⟩
  obtain ⟨result, hresult⟩ :=
    hanswer (object [("protocolVersion", text "2025-06-18"), ("capabilities", object []),
    ("clientInfo", object [("name", text "zenzip"), ("version", text "0")])])
  rw [ HttpClient.initialize, send_handle hauth hresult, reply_rpc]
  dsimp only
  rw [notify_handle hauth]
  exact ⟨_, rfl⟩

theorem listTools_handle (hauth : authorized o opts.authorization = true) :
    ∃ c', HttpClient.listTools (handle app o) opts (c, s) =
      (.ok (((buildTools app o).map toolEntry).map carried), (c', s)) := by
  have hanswer : answer (buildTools app o) (o.name.getD "zenzip".toList)
      (carried (requested c.id "tools/list".toList (object []))) "tools/list".toList s =
        (some (rpc (some (carried (integerOf (c.id + 1))))
          (object [("tools", .array ((buildTools app o).map toolEntry))])), s) := by
    rw [answer, if_neg (by simp), if_neg (by simp), if_pos rfl, prop_requested_id]
  have htools : (prop (carried (envelope (some (carried (integerOf (c.id + 1)))) "result"
      (object [("tools", .array ((buildTools app o).map toolEntry))]))) "result".toList).bind
        (prop · "tools".toList) =
        some (.array (((buildTools app o).map toolEntry).map carried)) := by
    rw [prop_result, Option.bind_some, Js.prop_carried, prop_object]
    exact congrArg some (Js.carried_array _)
  rw [HttpClient.listTools, send_handle hauth hanswer, reply_rpc]
  dsimp only
  rw [htools]
  exact ⟨_, rfl⟩

theorem callTool_handle (hauth : authorized o opts.authorization = true) (ht : t ∈ buildTools app o)
    (hname : t.name ≠ [])
    (args : JsonValue) :
    ∃ c', HttpClient.callTool (handle app o) opts t.name args (c, s) =
      (.ok (outcome (t.invoke (orElse (some (carried args)) (.object [])) s).1),
        (c', (t.invoke (orElse (some (carried args)) (.object [])) s).2)) := by
  have hparam : prop (carried (object [("name", .string t.name), ("arguments", args)]))
    "name".toList =
      some (.string t.name) := by
    rw [Js.prop_carried, prop_object]
    rfl
  have harguments : prop (carried (object [("name", .string t.name), ("arguments", args)]))
    "arguments".toList =
      some (carried args) := by
    rw [Js.prop_carried, prop_object]
    rfl
  have hfind : findTool (buildTools app o) (some (.string t.name)) = some t := by
    rw [findTool, if_neg hname]
    exact Table.get?_key (t := ⟨buildTools app o, nodup_buildTools app o⟩) ht
  have hanswer : answer (buildTools app o) (o.name.getD "zenzip".toList)
      (carried (requested c.id "tools/call".toList
        (object [("name", .string t.name), ("arguments", args)])))
      "tools/call".toList s =
      match t.invoke (orElse (some (carried args)) (.object [])) s with
      | (.ok out, s') =>
          (some (rpc (some (carried (integerOf (c.id + 1)))) (object [textContent (outText out)])),
            s')
      | (.error e, s') =>
          (some (rpc (some (carried (integerOf (c.id + 1))))
            (object [textContent e, ("isError", .bool true)])), s') := by
    rw [answer, if_neg (by simp), if_neg (by simp), if_neg (by simp), if_pos rfl, prop_requested_id,
      prop_requested_params]
    dsimp only [Option.bind_some]
    rw [hparam, harguments, hfind]
  cases hinvoke : t.invoke (orElse (some (carried args)) (.object [])) s with
  | mk r s' =>
      rw [hinvoke] at hanswer
      cases r with
      | ok out =>
          rw [HttpClient.callTool, send_handle hauth hanswer, reply_rpc]
          dsimp only
          rw [contentToString_textContent _ _ (.inl rfl), outcome]
          exact ⟨_, rfl⟩
      | error e =>
          rw [HttpClient.callTool, send_handle hauth hanswer, reply_rpc]
          dsimp only
          rw [contentToString_textContent _ _ (.inr rfl), outcome]
          exact ⟨_, rfl⟩

/-- `mcp` has the tools of the server, and a call of one of them comes to what calling it on the
server does, with what JSON carries of the arguments. -/
theorem mcp_handle (hauth : authorized o opts.authorization = true) (s : σ) :
    (∃ c, mcp (handle app o) opts s = (.ok ((buildTools app o).map (clientTool opts)), (c, s))) ∧
    ∀ t ∈ buildTools app o, t.name ≠ [] → ∀ args c s', ∃ c',
      HttpClient.callTool (handle app o) opts (clientTool opts t).target args (c, s') =
        (.ok (outcome (t.invoke (orElse (some (carried args)) (.object [])) s').1),
          (c', (t.invoke (orElse (some (carried args)) (.object [])) s').2)) := by
  constructor
  · obtain ⟨c, hinit⟩ : ∃ c, HttpClient.initialize (handle app o) opts (⟨0, none⟩, s) =
      (.ok (), (c, s)) :=
      initialize_handle hauth
    obtain ⟨c', hlist⟩ : ∃ c', HttpClient.listTools (handle app o) opts (c, s) =
        (.ok (((buildTools app o).map toolEntry).map carried), (c', s)) := listTools_handle hauth
    refine ⟨c', ?_⟩
    rw [mcp, hinit]
    dsimp only
    rw [hlist]
    dsimp only
    rw [mapM_toolEntry fun t ht => ht]
  · intro t ht hname args c s'
    exact callTool_handle hauth ht hname args

def remembering : Registry (List JsonValue) where
  workflows := [⟨"orders".toList, fun args s => (.ok (some (integerOf s.length)), args :: s),
    fun args _ s => (.ok (some (text "ok")), args :: s)⟩]
  agents := [⟨"help".toList, none, fun _ s => (.error "no model".toList, s)⟩]
  workflow_names := by simp
  agent_names := by simp

theorem mcp_handle_remembering : ∃ c, HttpClient.callTool
    (handle remembering { token := some "t".toList })
    { authorization := some "Bearer t".toList } "orders".toList (object [("id", integerOf 7)])
      (⟨2, none⟩, []) =
      (.ok "ok".toList, (c, [object [("id", integerOf 7)]])) := by
  have hauth : authorized { token := some "t".toList }
    ({ authorization := some "Bearer t".toList } : McpOptions).authorization =
      true := by decide +kernel
  have hseven : Js.number (7 : Int).repr.toList = (7 : Int).repr.toList := by decide +kernel
  have hcarried : carried (object [("id", integerOf 7)]) = object [("id", integerOf 7)] :=
    congrArg (fun t => object [("id", .number t)]) hseven
  have hmem : workflowTool { token := some "t".toList }
    (remembering.workflows.head (by simp [remembering])) ∈
      buildTools remembering { token := some "t".toList } := List.mem_cons_self
  have hcall := And.right (mcp_handle hauth [])
    (workflowTool { token := some "t".toList } (remembering.workflows.head (by simp [remembering])))
      hmem
    (by simp [workflowTool, remembering]) (object [("id", integerOf 7)]) ⟨2, none⟩ []
  rw [hcarried] at hcall
  exact hcall

end EndToEnd

section Traffic

variable {σ : Type} {app : Registry σ} {o : ServerOptions} {req : Request} {reqs : List Request}
  {s : σ} {call : Tool σ × JsonValue}

/-- Any requests, one after the other, from whomever they are. A rejection that nobody handles ends
the process. -/
def serveAll (handled : Bool) (app : Registry σ) (o : ServerOptions) :
    List Request → σ → List (Option Response) × σ
  | [], s => ([], s)
  | req :: reqs, s =>
      let r := handle app o req s
      if r.1.isSome || handled then
        (r.1 :: (serveAll handled app o reqs r.2).1, (serveAll handled app o reqs r.2).2)
      else ([none], r.2)

def callOf (app : Registry σ) (o : ServerOptions) (req : Request) : Option (Tool σ × JsonValue) :=
  if req.method = "POST".toList ∧ authorized o req.authorization = true then
    match (Js.parse req.body).bind
      (fun msg => (prop msg "method".toList).map (fun m => (msg, m))) with
    | some (msg, .string method) =>
        if method = "tools/call".toList then
          (findTool (buildTools app o) ((prop msg "params".toList).bind (prop · "name".toList))).map
            (fun t =>
            (t, orElse ((prop msg "params".toList).bind (prop · "arguments".toList)) (.object [])))
        else none
    | _ => none
  else none

theorem handle_state (app : Registry σ) (o : ServerOptions) (req : Request) (s : σ) :
    (handle app o req s).2 =
    ((callOf app o req).map (fun call => (call.1.invoke call.2 s).2)).getD s := by
  by_cases hpost : req.method = "POST".toList
  · cases hauth : authorized o req.authorization with
    | false =>
        rw [handle, if_neg (by simp [hpost]), if_pos hauth, callOf, if_neg (by simp [hauth])]
        rfl
    | true =>
        rw [handle, callOf, if_neg (by simp [hpost]), if_neg (by simp [hauth]),
          if_pos ⟨hpost, hauth⟩]
        split
        · next msg method _ =>
            by_cases hcall : method = "tools/call".toList
            · rw [if_pos hcall, hcall, answer, if_neg (by simp), if_neg (by simp), if_neg (by simp),
                if_pos rfl]
              dsimp only
              split
              · next hnone =>
                  rw [hnone]
                  rfl
              · next tool htool =>
                  rw [htool]
                  dsimp only [Option.map_some, Option.getD_some]
                  split
                  · next h => rw [h]
                  · next h => rw [h]
            · rw [if_neg hcall, answer]
              dsimp only [Option.map_none, Option.getD_none]
              split
              · rfl
              · split
                · rfl
                · split
                  · rfl
                  · rfl
        · rfl
  · rw [handle, if_pos hpost, callOf, if_neg (fun h => hpost h.1)]
    rfl

theorem mem_of_findTool {tools : List (Tool σ)} {name : Option JsonValue} {t : Tool σ}
    (h : findTool tools name = some t) :
    t ∈ tools := by
  unfold findTool at h
  split at h
  · obtain ⟨_, h⟩ := Option.ite_none_left_eq_some.mp h
    exact List.mem_of_find?_eq_some h
  · cases h

theorem callOf_granted (h : callOf app o req = some call) :
    authorized o req.authorization = true ∧ call.1 ∈ buildTools app o := by
  obtain ⟨⟨_, hauth⟩, h⟩ := Option.ite_none_right_eq_some.mp h
  refine ⟨hauth, ?_⟩
  split at h
  · obtain ⟨_, h⟩ := Option.ite_none_right_eq_some.mp h
    obtain ⟨tool, htool, rfl⟩ := Option.map_eq_some_iff.mp h
    exact mem_of_findTool htool
  · cases h

theorem bearer_of_authorized {token : List Char} {authorization : Option (List Char)}
    (ht : o.token = some token) (hne : token ≠ [])
    (h : authorized o authorization = true) : authorization = some ("Bearer ".toList ++ token) := by
  have hsome : o.token.filter (· ≠ []) = some token := by
    rw [ht]
    exact Option.filter_some_pos (decide_eq_true hne)
  rw [authorized, hsome] at h
  dsimp only at h
  split at h
  · cases h
  · next provided hprovided =>
      obtain ⟨hmap, _⟩ := Option.filter_eq_some_iff.mp hprovided
      obtain ⟨header, hheader, hdrop⟩ := Option.map_eq_some_iff.mp hmap
      obtain ⟨hgiven, hbearer⟩ := Option.filter_eq_some_iff.mp hheader
      obtain ⟨rest, rfl⟩ := List.isPrefixOf_iff_prefix.mp hbearer
      have hrest : provided = rest := hdrop.symm
      rw [hgiven, bufferFrom_inj (of_decide_eq_true h).2, hrest]

theorem serveAll_state (handled : Bool) (app : Registry σ) (o : ServerOptions) (reqs : List Request)
    (s : σ) :
    (serveAll handled app o reqs s).2 =
      ((reqs.take (serveAll handled app o reqs s).1.length).filterMap (callOf app o)).foldl
        (fun s call => (call.1.invoke call.2 s).2) s := by
  induction reqs generalizing s with
  | nil => rfl
  | cons req reqs ih =>
      have hstate := handle_state app o req s
      rw [serveAll]
      split
      · rw [ih, hstate, List.length_cons, List.take_succ_cons, List.filterMap_cons]
        cases callOf app o req with
        | none => rfl
        | some call => rfl
      · rw [hstate, List.length_singleton, List.take_succ_cons, List.take_zero, List.filterMap_cons]
        cases callOf app o req with
        | none => rfl
        | some call => rfl

/-- What the request gives as the name of a tool can be written into a text. -/
def Request.Nameable (req : Request) : Prop :=
  ∀ msg v, Js.parse req.body = some msg →
    (prop msg "params".toList).bind (prop · "name".toList) = some v → Js.text v ≠ none

theorem answer_ne_none {tools : List (Tool σ)} {serverName method : List Char} {msg : JsonValue}
    (h : ∀ v, (prop msg "params".toList).bind (prop · "name".toList) = some v → Js.text v ≠ none) :
    (answer tools serverName msg method s).1 ≠ none := by
  intro hnone
  simp only [answer] at hnone
  split at hnone
  · cases hnone
  split at hnone
  · cases hnone
  split at hnone
  · cases hnone
  split at hnone
  · split at hnone
    · rw [Option.map_eq_none_iff] at hnone
      cases hname : (prop msg "params".toList).bind (prop · "name".toList) with
      | none =>
          rw [hname] at hnone
          cases hnone
      | some v =>
          rw [hname] at hnone
          exact h v hname hnone
    · split at hnone <;> cases hnone
  · cases hnone

/-- Only a name that has no text keeps the handler from answering. -/
theorem handle_ne_none (h : req.Nameable) : (handle app o req s).1 ≠ none := by
  intro hnone
  simp only [handle] at hnone
  split at hnone
  · cases hnone
  split at hnone
  · cases hnone
  split at hnone
  · next msg method hmsg =>
      obtain ⟨msg', hparse, hmethod⟩ := Option.bind_eq_some_iff.mp hmsg
      obtain ⟨m, -, hm⟩ := Option.map_eq_some_iff.mp hmethod
      obtain ⟨rfl, -⟩ := Prod.mk.inj hm
      exact answer_ne_none (fun v hv => h _ v hparse hv) hnone
  · cases hnone

theorem length_serveAll (handled : Bool) (app : Registry σ) (o : ServerOptions)
    (reqs : List Request) (s : σ)
    (h : handled = true ∨ ∀ req ∈ reqs, req.Nameable) :
    (serveAll handled app o reqs s).1.length = reqs.length := by
  induction reqs generalizing s with
  | nil => rfl
  | cons req reqs ih =>
      have hgo : ((handle app o req s).1.isSome || handled) = true := by
        rcases h with h | h
        · rw [h, Bool.or_true]
        · rw [Option.isSome_iff_ne_none.mpr (handle_ne_none (h req List.mem_cons_self)),
            Bool.true_or]
      rw [serveAll, if_pos hgo, List.length_cons, List.length_cons,
        ih _ (h.imp_right fun hn r hr => hn r (List.mem_cons_of_mem req hr))]

/-- Whatever is sent, all that happens to the app are the calls, in their order, of the tools that
are listed, and under a token only those of requests that carry it. -/
theorem serveAll_calls (handled : Bool) (app : Registry σ) (o : ServerOptions) (reqs : List Request)
    (s : σ) :
    (serveAll handled app o reqs s).2 =
      ((reqs.take (serveAll handled app o reqs s).1.length).filterMap (callOf app o)).foldl
        (fun s call => (call.1.invoke call.2 s).2) s ∧
    (handled = true ∨ (∀ req ∈ reqs, req.Nameable) →
    (serveAll handled app o reqs s).1.length = reqs.length) ∧
    ∀ req ∈ reqs, ∀ call, callOf app o req = some call → call.1 ∈ buildTools app o ∧
      ∀ token, o.token = some token → token ≠ [] → req.authorization = some
        ("Bearer ".toList ++ token) := by
  refine ⟨serveAll_state handled app o reqs s, length_serveAll handled app o reqs s, ?_⟩
  intro req _ call hcall
  obtain ⟨hauth, htool⟩ := callOf_granted hcall
  exact ⟨htool, fun token ht hne => bearer_of_authorized ht hne hauth⟩

end Traffic

end ZenZip.Mcp
