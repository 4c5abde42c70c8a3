import Mathlib.Algebra.Group.Nat.Defs
import JustApi.Inference.Completions

/-! # Streams and whole completions

What a stream sends against what the whole response says, for the same tokens; and what
both make of a generation that fails. -/
namespace JustApi.Inference.Completions
open JustApi.Inference.LanguageModel

variable {F : Type}

/-! ## What a stream says -/

def ChatCompletionChunk.content (chunk : ChatCompletionChunk) : String :=
  String.join (chunk.choices.filterMap fun choice => choice.delta.content)

def ChatCompletionChunk.finishReasons (chunk : ChatCompletionChunk) : List String :=
  chunk.choices.filterMap ChunkChoice.finishReason

/-- The stream consists of chunks and `[DONE]`, of which the last chunk alone has a finish
reason, and says the same as a response. -/
def Agrees (events : List Event) (content finish : String) : Prop :=
  ∃ before last, events = before.map Event.chunk ++ [.chunk last, .done] ∧
    String.join ((before ++ [last]).map ChatCompletionChunk.content) = content ∧
    (∀ chunk ∈ before, chunk.finishReasons = []) ∧ last.finishReasons = [finish]

/-- At most one token has a finish reason, and only the last one. -/
def FinishesLast (tokens : List (GeneratedToken F)) : Prop :=
  ∀ before tok after, tokens = before ++ tok :: after → tok.finishReason ≠ none → after = []

/-! ## The loops -/

section Loops

variable {header : Header} {mark : Bool → Option String → Bool} {tok : GeneratedToken F}
  {tokens : List (GeneratedToken F)}

/-- The chunk for a token. -/
def tokenChunk (header : Header) (tok : GeneratedToken F) : ChatCompletionChunk :=
  ⟨header.id, "chat.completion.chunk", header.created, header.model,
    [⟨0, ⟨none, some tok.text⟩, tokenFinish tok⟩]⟩

theorem streamTokens_cons (finished : Bool) : streamTokens header mark finished (tok :: tokens) =
    (.chunk (tokenChunk header tok) ::
        (streamTokens header mark (mark finished (tokenFinish tok)) tokens).1,
      (streamTokens header mark (mark finished (tokenFinish tok)) tokens).2) := rfl

theorem streamTokens_events (header : Header) (mark : Bool → Option String → Bool)
    (finished : Bool) (tokens : List (GeneratedToken F)) :
    (streamTokens header mark finished tokens).1 =
      (tokens.map (tokenChunk header)).map Event.chunk := by
  induction tokens generalizing finished with
  | nil => rfl
  | cons tok rest ih =>
    rw [streamTokens_cons, ih]
    rfl

/-- A flag that a token with a finish reason sets and others do not. -/
def Marks (mark : Bool → Option String → Bool) : Prop :=
  (∀ finished reason, mark finished (some reason) = true) ∧ mark false none = false

theorem marks_last : Marks markLast := ⟨fun _ _ => rfl, rfl⟩

theorem marks_any : Marks markAny := ⟨fun _ _ => rfl, rfl⟩

/-- Where only the last token may finish, the flag says whether it does. -/
theorem streamTokens_finished (header : Header) (hmark : Marks mark)
    {tokens : List (GeneratedToken F)} (h : FinishesLast (tokens ++ [tok])) :
    (streamTokens header mark false (tokens ++ [tok])).2 = (tokenFinish tok).isSome := by
  induction tokens with
  | nil =>
    rw [List.nil_append, streamTokens_cons]
    cases hfinish : tokenFinish tok with
    | none => exact hmark.2
    | some reason => exact hmark.1 false reason
  | cons head rest ih =>
    have hhead : head.finishReason = none := by
      by_contra hne
      exact List.append_ne_nil_of_right_ne_nil rest (List.cons_ne_nil tok [])
        (h [] head (rest ++ [tok]) rfl hne)
    rw [List.cons_append, streamTokens_cons]
    have hfalse : mark false (tokenFinish head) = false := by
      rw [tokenFinish, hhead]
      exact hmark.2
    rw [hfalse]
    refine ih fun before t after he hne => ?_
    exact h (head :: before) t after (by rw [List.cons_append, he, List.cons_append]) hne

theorem FinishesLast.init (h : FinishesLast (tokens ++ [tok])) :
    ∀ t ∈ tokens, t.finishReason = none := by
  intro t ht
  obtain ⟨before, after, rfl⟩ := List.append_of_mem ht
  by_contra hne
  have hnil := h before t (after ++ [tok]) (by simp) hne
  exact List.append_ne_nil_of_right_ne_nil after (List.cons_ne_nil tok []) hnil

theorem collect_fold (tokens : List (GeneratedToken F)) (text finish : String) (n : Nat) :
    tokens.foldl (fun (text, finish, n) tok =>
        (text ++ tok.text, (tokenFinish tok).getD finish, n + 1)) (text, finish, n) =
      (text ++ String.join (tokens.map GeneratedToken.text),
        (tokens.foldl (fun finish tok => (tokenFinish tok).getD finish) finish),
        n + tokens.length) := by
  induction tokens generalizing text finish n with
  | nil => simp
  | cons tok rest ih =>
    rw [List.foldl_cons, ih]
    simp [String.append_assoc, Nat.add_assoc, Nat.add_comm 1]

/-- The whole response's finish reason is that of the last token, if only that may have one. -/
theorem collect_finish (h : FinishesLast (tokens ++ [tok])) :
    (collect (tokens ++ [tok])).2.1 = (tokenFinish tok).getD "length" := by
  have hinit : ∀ finish, tokens.foldl (fun finish tok => (tokenFinish tok).getD finish) finish =
      finish := by
    intro finish
    have hnone := h.init
    clear h
    induction tokens with
    | nil => rfl
    | cons head rest ih =>
      rw [List.foldl_cons, tokenFinish, hnone head List.mem_cons_self]
      exact ih fun t ht => hnone t (List.mem_cons_of_mem _ ht)
  rw [collect, collect_fold, List.foldl_append, hinit]
  rfl

theorem collect_text (tokens : List (GeneratedToken F)) :
    (collect tokens).1 = String.join (tokens.map GeneratedToken.text) := by
  rw [collect, collect_fold, String.empty_append]

theorem content_tokenChunk : (tokenChunk header tok).content = tok.text := by
  simp [ChatCompletionChunk.content, tokenChunk]

theorem finishReasons_tokenChunk :
    (tokenChunk header tok).finishReasons = (tokenFinish tok).toList := by
  cases h : tokenFinish tok with
  | none => simp [ChatCompletionChunk.finishReasons, tokenChunk, h]
  | some reason => simp [ChatCompletionChunk.finishReasons, tokenChunk, h]

/-- The chunk that ends a stream without a finish reason of its own. -/
def endChunk (header : Header) : ChatCompletionChunk :=
  ⟨header.id, "chat.completion.chunk", header.created, header.model,
    [⟨0, ⟨none, none⟩, some "length"⟩]⟩

theorem streamBody_finished (h : (streamTokens header mark false tokens).2 = true) :
    streamBody header mark (.ok tokens) =
      (tokens.map (tokenChunk header)).map Event.chunk ++ [.done] := by
  simp only [streamBody, h, streamTokens_events, if_true, List.append_nil]

theorem streamBody_unfinished (h : (streamTokens header mark false tokens).2 = false) :
    streamBody header mark (.ok tokens) =
      (tokens.map (tokenChunk header)).map Event.chunk ++ [.chunk (endChunk header), .done] := by
  simp only [streamBody, h, streamTokens_events, List.append_assoc]
  rfl

theorem join_contents (header : Header) (tokens : List (GeneratedToken F)) :
    String.join ((tokens.map (tokenChunk header)).map ChatCompletionChunk.content) =
      (collect tokens).1 := by
  rw [collect_text, List.map_map]
  exact congrArg String.join (List.map_congr_left fun _ _ => content_tokenChunk)

/-- What comes before the tokens: chunks without text and finish reasons. -/
def Opening (chunks : List ChatCompletionChunk) : Prop :=
  String.join (chunks.map ChatCompletionChunk.content) = "" ∧
    ∀ c ∈ chunks, c.finishReasons = []

/-- After the opening, a stream agrees with what is collected from the same tokens. -/
theorem streamBody_agrees (hmark : Marks mark) (h : FinishesLast tokens)
    {opening : List ChatCompletionChunk} (hopening : Opening opening) :
    Agrees (opening.map Event.chunk ++ streamBody header mark (.ok tokens))
      (collect tokens).1 (collect tokens).2.1 := by
  rcases List.eq_nil_or_concat tokens with rfl | ⟨init, tok, rfl⟩
  · refine ⟨opening, endChunk header, by rw [streamBody_unfinished rfl]; rfl, ?_, hopening.2, rfl⟩
    rw [List.map_append, String.join_append, hopening.1]
    rfl
  · rw [List.concat_eq_append] at h ⊢
    have hfinished := streamTokens_finished header hmark h
    have hnone : ∀ c ∈ opening ++ init.map (tokenChunk header), c.finishReasons = [] := by
      intro c hc
      rcases List.mem_append.mp hc with hc | hc
      · exact hopening.2 c hc
      · obtain ⟨t, ht, rfl⟩ := List.mem_map.mp hc
        rw [finishReasons_tokenChunk, tokenFinish, h.init t ht]
        rfl
    cases hfinish : tokenFinish tok with
    | some reason =>
      rw [hfinish] at hfinished
      refine ⟨opening ++ init.map (tokenChunk header), tokenChunk header tok, ?_, ?_, hnone, ?_⟩
      · rw [streamBody_finished hfinished]
        simp
      · rw [List.append_assoc, List.map_append, String.join_append, hopening.1, String.empty_append,
          ← join_contents header, List.map_append, List.map_append, List.map_append]
        rfl
      · rw [finishReasons_tokenChunk, collect_finish h, hfinish]
        rfl
    | none =>
      rw [hfinish] at hfinished
      refine ⟨opening ++ (init ++ [tok]).map (tokenChunk header), endChunk header, ?_, ?_, ?_, ?_⟩
      · rw [streamBody_unfinished hfinished]
        simp
      · rw [List.append_assoc, List.map_append, String.join_append, hopening.1, String.empty_append,
          List.map_append, String.join_append, join_contents header]
        exact String.append_empty
      · intro c hc
        rw [List.map_append, ← List.append_assoc] at hc
        rcases List.mem_append.mp hc with hc | hc
        · exact hnone c hc
        · rw [List.mem_singleton.mp hc, finishReasons_tokenChunk, hfinish]
          rfl
      · rw [collect_finish h, hfinish]
        rfl

end Loops

/-! ## The drivers -/

section Drivers

variable [One F] {generate : Generate F} {mark : Bool → Option String → Bool}
  {tokens : List (GeneratedToken F)}

theorem chatWhole_ok (stamp : Stamp) {req : ChatCompletionRequest F}
    (hreq : generate req.model req.tokens req.params = .ok tokens) :
    ∃ response, chatWhole generate stamp req = .ok response ∧
      response.choices =
        [⟨0, ⟨"assistant", (collect tokens).1, none⟩, (collect tokens).2.1⟩] := by
  rw [chatWhole, hreq]
  exact ⟨_, rfl, rfl⟩

theorem textWhole_ok (stamp : Stamp) {req : CompletionRequest F}
    (hreq : generate req.model req.tokens req.params = .ok tokens) :
    ∃ response, textWhole generate stamp req = .ok response ∧
      response.choices = [⟨(collect tokens).1, 0, (collect tokens).2.1⟩] := by
  rw [textWhole, hreq]
  exact ⟨_, rfl, rfl⟩

theorem chatStream_agrees (hmark : Marks mark) (h : FinishesLast tokens) (stamp stamp' : Stamp)
    {req : ChatCompletionRequest F} (hreq : generate req.model req.tokens req.params = .ok tokens) :
    ∃ response choice, chatWhole generate stamp req = .ok response ∧
      response.choices = [choice] ∧
      Agrees (chatStream generate stamp' mark req) choice.message.content choice.finishReason := by
  obtain ⟨response, hok, hchoices⟩ := chatWhole_ok stamp hreq
  refine ⟨response, _, hok, hchoices, ?_⟩
  have hopening : Opening [⟨"chatcmpl-" ++ stamp'.shortId, "chat.completion.chunk", stamp'.now,
      req.model, [⟨0, ⟨some "assistant", none⟩, none⟩]⟩] := by
    refine ⟨rfl, fun c hc => ?_⟩
    rw [List.mem_singleton.mp hc]
    rfl
  rw [chatStream, hreq]
  exact streamBody_agrees hmark h hopening

theorem textStream_agrees (hmark : Marks mark) (h : FinishesLast tokens) (stamp stamp' : Stamp)
    {req : CompletionRequest F} (hreq : generate req.model req.tokens req.params = .ok tokens) :
    ∃ response choice, textWhole generate stamp req = .ok response ∧
      response.choices = [choice] ∧
      Agrees (textStream generate stamp' mark req) choice.text choice.finishReason := by
  obtain ⟨response, hok, hchoices⟩ := textWhole_ok stamp hreq
  refine ⟨response, _, hok, hchoices, ?_⟩
  have hopening : Opening [] := ⟨rfl, fun _ hc => absurd hc List.not_mem_nil⟩
  rw [textStream, hreq]
  exact streamBody_agrees hmark h hopening

end Drivers

/-- **Streams agree.** Whatever tokens are received, if only the last may carry a finish
reason, all four streams say what the whole response for the same tokens says. -/
theorem streams_agree [One F] (generate : Generate F) (stamp stamp' : Stamp)
    (tokens : List (GeneratedToken F)) (h : FinishesLast tokens) :
    (∀ req : ChatCompletionRequest F, generate req.model req.tokens req.params = .ok tokens →
      (∃ response choice, chatCompletion generate stamp req = .ok response ∧
        response.choices = [choice] ∧ Agrees (chatCompletionStream generate stamp' req)
          choice.message.content choice.finishReason) ∧
      ∃ response choice, scheduledChatCompletion generate stamp req = .ok response ∧
        response.choices = [choice] ∧ Agrees (scheduledChatCompletionStream generate stamp' req)
          choice.message.content choice.finishReason) ∧
    ∀ req : CompletionRequest F, generate req.model req.tokens req.params = .ok tokens →
      (∃ response choice, completion generate stamp req = .ok response ∧
        response.choices = [choice] ∧
        Agrees (completionStream generate stamp' req) choice.text choice.finishReason) ∧
      ∃ response choice, scheduledCompletion generate stamp req = .ok response ∧
        response.choices = [choice] ∧
        Agrees (scheduledCompletionStream generate stamp' req) choice.text choice.finishReason :=
  ⟨fun _ hreq => ⟨chatStream_agrees marks_last h stamp stamp' hreq,
      chatStream_agrees marks_any h stamp stamp' hreq⟩,
    fun _ hreq => ⟨textStream_agrees marks_last h stamp stamp' hreq,
      textStream_agrees marks_any h stamp stamp' hreq⟩⟩

/-- A token, and one that stops. -/
def twoTokens : List (GeneratedToken Nat) := [⟨1, "a", 0, none⟩, ⟨2, "b", 0, some .stop⟩]

theorem streams_agree_two : ∃ response choice,
    chatCompletion (fun _ _ _ => .ok twoTokens) ⟨"1", 0⟩ ⟨"m", [], none, 2, none, none⟩ =
      .ok response ∧ response.choices = [choice] ∧
    Agrees (chatCompletionStream (fun _ _ _ => .ok twoTokens) ⟨"1", 0⟩
      ⟨"m", [], none, 2, none, none⟩) choice.message.content choice.finishReason := by
  have h : FinishesLast twoTokens := by
    intro before tok after he hne
    cases before with
    | nil =>
      cases he
      exact absurd rfl hne
    | cons first rest =>
      have hlength := congrArg List.length he
      simp only [twoTokens, List.length_cons, List.length_append, List.length_nil] at hlength
      exact List.length_eq_zero_iff.mp (by omega)
  exact ((streams_agree (fun _ _ _ => .ok twoTokens) ⟨"1", 0⟩ ⟨"1", 0⟩ twoTokens h).1 _ rfl).1

/-! ## Failures -/

section Failures

/-- The model is there, and its generation returns an error. -/
def FailsOn (engine : Engine F) (name : String) (prompt : List UInt32)
    (params : SamplingParams F) : Prop :=
  ∃ model e, engine.get name = some model ∧ (model.generate prompt params).2 = .error e

/-- The same models, where every generation ends well. -/
def Engine.unfailing (engine : Engine F) (reason : FinishReason) : Engine F where
  get name := (engine.get name).map fun model =>
    ⟨fun prompt params => ((model.generate prompt params).1, .ok reason)⟩

/-- What is received does not depend on how a generation ends. -/
theorem generate_unfailing (engine : Engine F) (reason : FinishReason) :
    (engine.unfailing reason).generate = engine.generate := by
  funext name prompt params
  simp only [Engine.generate, Engine.unfailing]
  cases engine.get name with
  | none => rfl
  | some model => rfl

variable {engine : Engine F} {header : Header} {mark : Bool → Option String → Bool}

theorem generate_of_failsOn {name : String} {prompt : List UInt32} {params : SamplingParams F}
    (h : FailsOn engine name prompt params) :
    ∃ tokens, engine.generate name prompt params = .ok tokens := by
  obtain ⟨model, e, hget, _⟩ := h
  rw [Engine.generate, hget]
  exact ⟨_, rfl⟩

theorem error_notMem_streamBody (tokens : List (GeneratedToken F)) (err : ApiError) :
    Event.error err ∉ streamBody header mark (.ok tokens) := by
  have hchunks : Event.error err ∉ (tokens.map (tokenChunk header)).map Event.chunk := by
    intro hmem
    obtain ⟨_, _, he⟩ := List.mem_map.mp hmem
    cases he
  cases h : (streamTokens header mark false tokens).2 with
  | true =>
    rw [streamBody_finished h, List.mem_append, not_or]
    exact ⟨hchunks, by simp⟩
  | false =>
    rw [streamBody_unfinished h, List.mem_append, not_or]
    exact ⟨hchunks, by simp⟩

end Failures

/-- **Errors are masked.** Whenever the generation fails, none of the four drivers says so:
they answer as if it had ended well. -/
theorem errors_masked [One F] (engine : Engine F) (stamp : Stamp) (reason : FinishReason) :
    (∀ req : ChatCompletionRequest F, FailsOn engine req.model req.tokens req.params →
      (¬ ∃ e, chatCompletion engine.generate stamp req = .error e) ∧
      (¬ ∃ err, Event.error err ∈ chatCompletionStream engine.generate stamp req) ∧
      chatCompletion engine.generate stamp req =
        chatCompletion (engine.unfailing reason).generate stamp req) ∧
    ∀ req : CompletionRequest F, FailsOn engine req.model req.tokens req.params →
      (¬ ∃ e, completion engine.generate stamp req = .error e) ∧
      (¬ ∃ err, Event.error err ∈ completionStream engine.generate stamp req) ∧
      completion engine.generate stamp req =
        completion (engine.unfailing reason).generate stamp req := by
  rw [generate_unfailing]
  refine ⟨fun req hfails => ⟨?_, ?_, rfl⟩, fun req hfails => ⟨?_, ?_, rfl⟩⟩
  · obtain ⟨tokens, hreq⟩ := generate_of_failsOn hfails
    obtain ⟨response, hok, _⟩ := chatWhole_ok stamp hreq
    intro h
    obtain ⟨e, he⟩ := h
    cases hok.symm.trans he
  · obtain ⟨tokens, hreq⟩ := generate_of_failsOn hfails
    intro h
    obtain ⟨err, hmem⟩ := h
    rw [chatCompletionStream, chatStream, hreq] at hmem
    rcases List.mem_cons.mp hmem with he | hmem
    · cases he
    · exact error_notMem_streamBody tokens err hmem
  · obtain ⟨tokens, hreq⟩ := generate_of_failsOn hfails
    obtain ⟨response, hok, _⟩ := textWhole_ok stamp hreq
    intro h
    obtain ⟨e, he⟩ := h
    cases hok.symm.trans he
  · obtain ⟨tokens, hreq⟩ := generate_of_failsOn hfails
    intro h
    obtain ⟨err, hmem⟩ := h
    rw [completionStream, textStream, hreq] at hmem
    exact error_notMem_streamBody tokens err hmem

/-- A model that fails after one token. -/
def failingEngine : Engine Nat where
  get name := if name = "m" then
    some ⟨fun _ _ => ([⟨1, "a", 0, none⟩], .error (.generation "out of memory"))⟩ else none

theorem errors_masked_failing :
    ¬ ∃ e, chatCompletion failingEngine.generate ⟨"1", 0⟩ ⟨"m", [], none, 2, none, none⟩ =
      .error e :=
  ((errors_masked failingEngine ⟨"1", 0⟩ .length).1 _ ⟨_, _, rfl, rfl⟩).1

/-- The answer is one token that ended because of the limit. -/
theorem failure_reported_as_length :
    FailsOn failingEngine "m" (tokenize "hi")
        (CompletionRequest.params ⟨"m", "hi", none, 2, none⟩) ∧
      completion failingEngine.generate ⟨"1", 0⟩ ⟨"m", "hi", none, 2, none⟩ =
        .ok ⟨"cmpl-1", "text_completion", 0, "m", [⟨"a", 0, "length"⟩], ⟨2, 1, 3⟩⟩ ∧
      completionStream failingEngine.generate ⟨"1", 0⟩ ⟨"m", "hi", none, 2, none⟩ =
        [.chunk ⟨"cmpl-1", "chat.completion.chunk", 0, "m", [⟨0, ⟨none, some "a"⟩, none⟩]⟩,
          .chunk ⟨"cmpl-1", "chat.completion.chunk", 0, "m", [⟨0, ⟨none, none⟩, some "length"⟩]⟩,
          .done] :=
  ⟨⟨_, _, rfl, rfl⟩, by decide, by decide⟩

end JustApi.Inference.Completions
