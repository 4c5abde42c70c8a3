import JustApi.Py.Replies

/-! # One reply for one value

When a value leads to the same reply on all four ways. As an element of an async batch it
is only ever read as an envelope, so what it spells out under the names of an envelope has
to be what comes of it elsewhere. -/
namespace JustApi.Py.Replies
open JustApi.Core.Http (Bytes)
open JustApi.Core.QueryString (asBytes)

/-! ## The law -/

/-- The reply to a request whose value stands in a batch between others. -/
structure SameReply (before : List Value) (v : Value) (after : List Value) : Prop where
  sync : syncReply v = asyncReply v
  syncBatch : ∀ requests, before.length < requests →
    (syncBatch requests (before ++ v :: after))[before.length]? = some (asyncReply v)
  asyncBatch : ∀ requests, before.length < requests →
    (asyncBatch requests (before ++ v :: after))[before.length]? = some (asyncReply v)

/-- The reply that a value spells out under the names of an envelope. -/
def Value.spelled (v : Value) : Reply := v.items.reply.toResponse

/-- No body, one that is bytes, or one that is an empty text. -/
def PlainBody : Option Entry → Prop
  | none => True
  | some b => b.text = some "" ∨ b.text = none ∧ (b.bytes ≠ none ∨ b.shown.getD "" = "")

/-- What `wrap_result` makes of the value, its `to_dict` or its JSON, is spelled out. -/
def WrapsAsSpelled (v : Value) : Prop :=
  ∃ items, v.wrapResult = some items ∧ items.reply.toResponse = v.spelled

/-- The JSON of the value is spelled out. -/
def DumpsAsSpelled (v : Value) : Prop :=
  match v.dumped with
  | some body => (jsonReply body).toResponse = v.spelled
  | none => WrapsAsSpelled v

/-- What a value is taken for by itself is spelled out. -/
def SerializesAsSpelled (v : Value) : Prop :=
  match v.own, v.marked with
  | some own, true => own.attributes.asResponse.toResponse = v.spelled
  | _, _ =>
    match v.base with
    | .dict entries =>
      if isEnvelope entries v.items.response then PlainBody v.items.body else DumpsAsSpelled v
    | .data => DumpsAsSpelled v
    | .bytes content => (octets content).toResponse = v.spelled
    | .other => WrapsAsSpelled v

/-- The values for which there is one reply. -/
structure Uniform (before : List Value) (v : Value) (after : List Value) : Prop where
  awaited : ∀ own, v.own = some own → v.takenForFuture = true → own.settled = v.spelled
  serialized : SerializesAsSpelled v
  batched : (WrapsAsSpelled v ∧ ∀ u ∈ before ++ after, u.wrapResult ≠ none) ∨
    v.spelled = batchError.toResponse ∧ ∃ u ∈ before ++ v :: after, u.wrapResult = none

/-! ## Batches -/

theorem getElem?_fitted {requests i : Nat} {results : List NativeResponse} (hi : i < requests)
    (hlen : i < results.length) : (fitted requests results)[i]? = results[i]? := by
  rw [fitted, List.getElem?_take_of_lt hi, List.getElem?_append_left hlen]

theorem mapM_eq_none_iff {α β : Type} (f : α → Option β) (l : List α) :
    l.mapM f = none ↔ ∃ a ∈ l, f a = none := by
  induction l with
  | nil => simp
  | cons a l ih =>
    rw [List.mapM_cons]
    cases ha : f a with
    | none => exact ⟨fun _ => ⟨a, List.mem_cons_self, ha⟩, fun _ => rfl⟩
    | some b =>
      rw [List.exists_mem_cons_iff, ha]
      cases hl : l.mapM f with
      | none => simpa using ih.mp hl
      | some bs => simpa [hl] using ih

theorem getElem?_mapM {α β : Type} {f : α → Option β} {l : List α} {bs : List β}
    (h : l.mapM f = some bs) (i : Nat) : bs[i]? = l[i]?.bind f := by
  induction l generalizing bs i with
  | nil =>
    cases h
    rfl
  | cons a l ih =>
    rw [List.mapM_cons] at h
    obtain ⟨b, hb, h⟩ := Option.bind_eq_some_iff.mp h
    obtain ⟨rest, hrest, h⟩ := Option.bind_eq_some_iff.mp h
    cases h
    cases i with
    | zero => exact hb.symm
    | succ i => exact ih hrest i

section Batches

variable {before : List Value} {v : Value} {after : List Value} {requests : Nat}

theorem getElem?_middle : (before ++ v :: after)[before.length]? = some v := by
  rw [List.getElem?_append_right (Nat.le_refl _), Nat.sub_self]
  rfl

theorem asyncBatch_middle (h : before.length < requests) :
    (asyncBatch requests (before ++ v :: after))[before.length]? = some v.spelled := by
  have hlen : before.length < ((before ++ v :: after).map fun v => v.items.reply).length := by
    simp
  rw [asyncBatch, List.getElem?_map, getElem?_fitted h hlen, List.getElem?_map, getElem?_middle]
  rfl

/-- Every element is wrapped, or none is. -/
theorem syncBatch_middle (h : before.length < requests) :
    (∃ items, v.wrapResult = some items ∧ (∀ u ∈ before ++ after, u.wrapResult ≠ none) ∧
      (syncBatch requests (before ++ v :: after))[before.length]? =
        some items.reply.toResponse) ∨
    (∃ u ∈ before ++ v :: after, u.wrapResult = none) ∧
      (syncBatch requests (before ++ v :: after))[before.length]? =
        some batchError.toResponse := by
  unfold syncBatch
  cases hwrapped : (before ++ v :: after).mapM Value.wrapResult with
  | none =>
    refine .inr ⟨(mapM_eq_none_iff _ _).mp hwrapped, ?_⟩
    rw [List.getElem?_map, List.getElem?_replicate_of_lt h]
    rfl
  | some wrapped =>
    left
    have hall : ∀ u ∈ before ++ v :: after, u.wrapResult ≠ none := by
      intro u hu hnone
      rw [(mapM_eq_none_iff _ _).mpr ⟨u, hu, hnone⟩] at hwrapped
      cases hwrapped
    have hget : wrapped[before.length]? = v.wrapResult := by
      rw [getElem?_mapM hwrapped, getElem?_middle]
      rfl
    obtain ⟨items, hitems⟩ := Option.ne_none_iff_exists'.mp
      (hall v (List.mem_append_right _ List.mem_cons_self))
    refine ⟨items, hitems, fun u hu => hall u ?_, ?_⟩
    · rcases List.mem_append.mp hu with hu | hu
      · exact List.mem_append_left _ hu
      · exact List.mem_append_right _ (List.mem_cons_of_mem _ hu)
    · have hmap : (wrapped.map Items.reply)[before.length]? = some items.reply := by
        rw [List.getElem?_map, hget, hitems]
        rfl
      obtain ⟨hlen, -⟩ := List.getElem?_eq_some_iff.mp hmap
      rw [List.getElem?_map, getElem?_fitted h hlen, hmap]
      rfl

end Batches

/-! ## Serialization -/

theorem asBytes_eq_nil {s : String} : asBytes s = [] ↔ s = "" := by
  constructor
  · intro h
    rw [← String.toList_eq_nil_iff]
    cases hs : s.toList with
    | nil => rfl
    | cons c cs =>
      rw [asBytes, hs, List.flatMap_cons, List.append_eq_nil_iff] at h
      have hlen := String.length_utf8EncodeChar c
      rw [h.1] at hlen
      exact absurd hlen.symm (Nat.ne_of_gt (Char.utf8Size_pos c))
  · rintro rfl
    rfl

/-- An envelope is read in the same way by both sides when its body is plain. -/
theorem envelope_iff (items : Items) :
    items.envelope.toResponse = items.reply.toResponse ↔ PlainBody items.body := by
  have hbody : items.envelope.toResponse = items.reply.toResponse ↔
      (items.body.map Entry.envelopeBody).getD [] = (items.body.bind Entry.bytes).getD [] :=
    ⟨fun h => congrArg Reply.body h, fun h => by
      rw [Items.envelope, NativeResponse.toResponse, h]
      rfl⟩
  rw [hbody]
  cases items.body with
  | none => exact ⟨fun _ => trivial, fun _ => rfl⟩
  | some b =>
    show b.envelopeBody = b.bytes.getD [] ↔ PlainBody (some b)
    unfold Entry.envelopeBody PlainBody
    dsimp only
    cases htext : b.text with
    | some s =>
      have hbytes := b.bytes_of_isStr (b.isStr_of_text (by rw [htext]; exact Option.some_ne_none s))
      dsimp only
      rw [hbytes, Option.getD_none, asBytes_eq_nil]
      exact ⟨fun h => .inl (congrArg some h), fun h => h.elim Option.some.inj fun h => by cases h.1⟩
    | none =>
      cases hbytes : b.bytes with
      | some bytes => exact ⟨fun _ => .inr ⟨rfl, .inl (Option.some_ne_none _)⟩, fun _ => rfl⟩
      | none =>
        dsimp only
        cases hshown : b.shown with
        | none => exact ⟨fun _ => .inr ⟨rfl, .inr rfl⟩, fun _ => rfl⟩
        | some s =>
          rw [Option.map_some, Option.getD_some, Option.getD_none, asBytes_eq_nil]
          refine ⟨fun h => .inr ⟨rfl, .inr h⟩, ?_⟩
          rintro (h | ⟨-, h | h⟩)
          · cases h
          · exact absurd rfl h
          · exact h

theorem notSerialized_ne_batchError : notSerialized.toResponse ≠ batchError.toResponse := by
  intro h
  have hbody : notSerialized.body = batchError.body := congrArg Reply.body h
  revert hbody
  decide

variable {before : List Value} {v : Value} {after : List Value}

theorem slowPath_iff (h : v.wrapResult = none → v.spelled = batchError.toResponse) :
    v.slowPath.toResponse = v.spelled ↔ WrapsAsSpelled v := by
  unfold Value.slowPath WrapsAsSpelled
  cases hwrap : v.wrapResult with
  | some items =>
    exact ⟨fun he => ⟨items, rfl, he⟩, fun ⟨_, he, hs⟩ => Option.some.inj he ▸ hs⟩
  | none =>
    refine ⟨fun he => ?_, fun ⟨_, he, _⟩ => by cases he⟩
    exact absurd (he.trans (h hwrap)) notSerialized_ne_batchError

theorem dumpPath_iff (h : v.wrapResult = none → v.spelled = batchError.toResponse) :
    v.dumpPath.toResponse = v.spelled ↔ DumpsAsSpelled v := by
  unfold Value.dumpPath DumpsAsSpelled
  cases v.dumped with
  | some body => exact Iff.rfl
  | none => exact slowPath_iff h

theorem serializeResponse_iff (h : v.wrapResult = none → v.spelled = batchError.toResponse) :
    v.serializeResponse.toResponse = v.spelled ↔ SerializesAsSpelled v := by
  have hbase : (match v.base with
      | .dict entries =>
        if isEnvelope entries v.items.response then v.items.envelope else v.dumpPath
      | .data => v.dumpPath
      | .bytes content => octets content
      | .other => v.slowPath).toResponse = v.spelled ↔
      match v.base with
      | .dict entries =>
        if isEnvelope entries v.items.response then PlainBody v.items.body else DumpsAsSpelled v
      | .data => DumpsAsSpelled v
      | .bytes content => (octets content).toResponse = v.spelled
      | .other => WrapsAsSpelled v := by
    cases v.base with
    | data => exact dumpPath_iff h
    | bytes content => exact Iff.rfl
    | dict entries =>
      dsimp only
      split
      · exact envelope_iff _
      · exact dumpPath_iff h
    | other => exact slowPath_iff h
  unfold Value.serializeResponse SerializesAsSpelled
  cases v.own with
  | none => exact hbase
  | some own =>
    cases v.marked with
    | true => exact Iff.rfl
    | false => exact hbase

/-! ## Agreement -/

theorem all_wrapped {items : Items} (hitems : v.wrapResult = some items)
    (hothers : ∀ u ∈ before ++ after, u.wrapResult ≠ none) :
    ¬ ∃ u ∈ before ++ v :: after, u.wrapResult = none := by
  rintro ⟨u, hu, hnone⟩
  rcases List.mem_append.mp hu with hu | hu
  · exact hothers u (List.mem_append_left _ hu) hnone
  · rcases List.mem_cons.mp hu with rfl | hu
    · rw [hitems] at hnone
      cases hnone
    · exact hothers u (List.mem_append_right _ hu) hnone

/-- A value that is not wrapped fails its batch. -/
theorem spelled_of_batched (h : (WrapsAsSpelled v ∧ ∀ u ∈ before ++ after, u.wrapResult ≠ none) ∨
      v.spelled = batchError.toResponse ∧ ∃ u ∈ before ++ v :: after, u.wrapResult = none)
    (hnone : v.wrapResult = none) : v.spelled = batchError.toResponse := by
  rcases h with ⟨⟨items, hitems, -⟩, -⟩ | ⟨herror, -⟩
  · rw [hitems] at hnone
    cases hnone
  · exact herror

theorem syncReply_iff (h : asyncReply v = v.spelled) : syncReply v = asyncReply v ↔
    ∀ own, v.own = some own → v.takenForFuture = true → own.settled = v.spelled := by
  rw [h]
  unfold syncReply
  cases hown : v.own with
  | none => exact ⟨fun _ _ he => (Option.some_ne_none _ he.symm).elim, fun _ => h⟩
  | some own =>
    cases htaken : v.takenForFuture with
    | true =>
      exact ⟨fun he _ hs _ => Option.some.inj hs ▸ he, fun he => he own rfl rfl⟩
    | false => exact ⟨fun _ _ _ he => (Bool.false_ne_true he).elim, fun _ => h⟩

/-! ## Builtin values -/

/-- What is sent with a content type is not what a value spells out that has no items. -/
theorem typed_ne_spelled {nr : NativeResponse} (hitems : v.items = .none)
    (htyped : nr.toResponse.headers contentType ≠ none) : nr.toResponse ≠ v.spelled := by
  intro h
  rw [h, Value.spelled, hitems] at htyped
  exact htyped rfl

theorem jsonReply_typed (body : Bytes) :
    (jsonReply body).toResponse.headers contentType ≠ none := by
  show (jsonReply []).toResponse.headers contentType ≠ none
  decide

theorem octets_typed (body : Bytes) : (octets body).toResponse.headers contentType ≠ none := by
  show (octets []).toResponse.headers contentType ≠ none
  decide

/-- Of the values that no class adds to, only a `dict` leads to one reply. -/
theorem Uniform.dict_of_builtin (h : Uniform before v after) (hown : v.own = none) :
    ∃ entries, v.base = .dict entries := by
  obtain ⟨base, own, dumped⟩ := v
  subst hown
  have hserialized := h.serialized
  have hwraps : ∀ base, (∀ entries, base ≠ .dict entries) →
      ¬ WrapsAsSpelled ⟨base, none, dumped⟩ := by
    rintro base hbase ⟨items, hwrap, hspelled⟩
    cases base with
    | dict entries => exact hbase entries rfl
    | _ =>
      obtain ⟨body, -, rfl⟩ := Option.map_eq_some_iff.mp hwrap
      have htyped := jsonReply_typed body
      exact typed_ne_spelled rfl htyped hspelled
  cases base with
  | dict entries => exact ⟨entries, rfl⟩
  | data =>
    cases dumped with
    | none => exact absurd hserialized (hwraps _ fun _ => Base.noConfusion)
    | some body => exact absurd hserialized (typed_ne_spelled rfl (jsonReply_typed body))
  | bytes content => exact absurd hserialized (typed_ne_spelled rfl (octets_typed content))
  | other => exact absurd hserialized (hwraps _ fun _ => Base.noConfusion)

theorem encodeBody_iff {entries : List (Option String × Entry)} {items : Items}
    (hbody : items.body = entries.lookup (some "body")) :
    (∃ encoded, encodeBody entries items = some encoded ∧
      encoded.reply.toResponse = items.reply.toResponse) ↔
      ∀ b, items.body = some b → b.isStr = true → b.text = some "" := by
  unfold encodeBody
  rw [← hbody]
  cases hb : items.body with
  | none => exact ⟨fun _ _ he => (Option.some_ne_none _ he.symm).elim, fun _ => ⟨_, rfl, rfl⟩⟩
  | some b =>
    rw [if_pos Option.isSome_some, Option.bind_eq_bind, Option.bind_some]
    split
    next hstr =>
      cases htext : b.text with
      | none =>
        refine ⟨fun ⟨_, he, _⟩ => (Option.some_ne_none _ he.symm).elim, fun h => ?_⟩
        have htext' := h b rfl hstr
        rw [htext] at htext'
        cases htext'
      | some s =>
        constructor
        · rintro ⟨encoded, he, hreply⟩ b' hb' -
          cases he
          cases hb'
          have hbytes : asBytes s = (items.body.bind Entry.bytes).getD [] :=
            congrArg Reply.body hreply
          rw [hb, Option.bind_some, b.bytes_of_isStr hstr, Option.getD_none,
            asBytes_eq_nil] at hbytes
          rw [htext, hbytes]
        · intro h
          refine ⟨_, rfl, ?_⟩
          have hempty := Option.some.inj (htext.symm.trans (h b rfl hstr))
          unfold Items.reply
          dsimp only
          rw [hb, Option.bind_some, Option.bind_some, b.bytes_of_isStr hstr, hempty]
          rfl
    next hstr =>
      exact ⟨fun _ b' hb' h => absurd (Option.some.inj hb' ▸ h) hstr, fun _ => ⟨_, rfl, rfl⟩⟩

/-- A `dict` that `wrap_result` takes for an envelope is wrapped as it is, unless its body
is a text. -/
theorem wrapsAsSpelled_envelope {entries : List (Option String × Entry)} (hown : v.own = none)
    (hbase : v.base = .dict entries) (henvelope : isWrapEnvelope entries = true) :
    WrapsAsSpelled v ↔ ∀ b, v.items.body = some b → b.isStr = true → b.text = some "" := by
  obtain ⟨base, own, dumped⟩ := v
  subst hown
  subst hbase
  have hwrap : (⟨.dict entries, none, dumped⟩ : Value).wrapResult =
      encodeBody entries (Base.dict entries).items := if_pos henvelope
  unfold WrapsAsSpelled
  rw [hwrap]
  exact encodeBody_iff rfl

end JustApi.Py.Replies
