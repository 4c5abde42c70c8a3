import JustApi.Py.Uploads

/-! # No upload outlives its objects

New files belong to objects that are open. Only the exits of the dispatcher that drop a form
unseen leave files that belong to nothing. -/
namespace JustApi.Py.Uploads
open JustApi.Core.Http JustApi.Core.Routing
open JustApi.Core.Multipart
  (Path Part Host MultipartForm removeFile mem_removeFile parseMultipart FileArrives Kept)
open JustApi.Core.QueryString (asBytes)
open JustApi.Lib.Run JustApi.Py.Pipeline
open JustApi.Py.RouteTables (plainPaths)

/-- The objects have files of their own, and these exist while they are open. -/
structure Present (st : State) : Prop where
  distinct : ∀ (i j : Nat) (u v : UploadFile), st.objects[i]? = some u → st.objects[j]? = some v →
    u.tempPath = v.tempPath → i = j
  open_exist : ∀ (i : Nat) (u : UploadFile), st.objects[i]? = some u → u.IsOpen →
    u.tempPath ∈ st.files

/-- The files besides those from `before` are waiting for an object, or belong to one. -/
structure Owned (before waiting : List Path) (st : State) : Prop extends Present st where
  waiting_nodup : waiting.Nodup
  waiting_notMem : ∀ (i : Nat) (u : UploadFile), st.objects[i]? = some u → u.tempPath ∉ waiting
  waiting_exist : ∀ p ∈ waiting, p ∈ st.files
  owned : ∀ p ∈ st.files, p ∈ before ∨ p ∈ waiting ∨
    ∃ i : Nat, ∃ u, st.objects[i]? = some u ∧ u.IsOpen ∧ u.tempPath = p

variable {before waiting : List Path} {s t st : State} {i : Nat} {u : UploadFile}
  {f : UploadFile → UploadFile}

theorem Present.of_eq (h : Present s) (hfiles : t.files = s.files)
    (hobjects : t.objects = s.objects) : Present t := by
  constructor
  · rw [hobjects]
    exact h.distinct
  · rw [hobjects, hfiles]
    exact h.open_exist

theorem Owned.of_eq (h : Owned before waiting s) (hfiles : t.files = s.files)
    (hobjects : t.objects = s.objects) : Owned before waiting t := by
  refine ⟨h.toPresent.of_eq hfiles hobjects, h.waiting_nodup, ?_, ?_, ?_⟩
  · rw [hobjects]
    exact h.waiting_notMem
  · rw [hfiles]
    exact h.waiting_exist
  · rw [hfiles, hobjects]
    exact h.owned

/-! ## Shutting an object -/

/-- An object is dropped or closed; if it was open its file goes. -/
structure Shuts (s t : State) (i : Nat) (u : UploadFile) (f : UploadFile → UploadFile) : Prop where
  get : s.objects[i]? = some u
  objects : t.objects = s.objects.modify i f
  path : (f u).tempPath = u.tempPath
  notOpen : ¬ (f u).IsOpen
  files : t.files = removeFile u.tempPath s.files ∨ t.files = s.files ∧ ¬ u.IsOpen

theorem Shuts.cases (h : Shuts s t i u f) {j : Nat} {v : UploadFile}
    (hv : t.objects[j]? = some v) : j = i ∧ v = f u ∨ j ≠ i ∧ s.objects[j]? = some v := by
  rw [h.objects] at hv
  by_cases hj : j = i
  · subst hj
    rw [List.getElem?_modify_eq, h.get] at hv
    exact .inl ⟨rfl, (Option.some.inj hv).symm⟩
  · rw [List.getElem?_modify_ne _ _ fun he => hj he.symm] at hv
    exact .inr ⟨hj, hv⟩

/-- Every object was there before, with the same file. -/
theorem Shuts.same_path (h : Shuts s t i u f) {j : Nat} {v : UploadFile}
    (hv : t.objects[j]? = some v) : ∃ w, s.objects[j]? = some w ∧ w.tempPath = v.tempPath := by
  rcases h.cases hv with ⟨rfl, rfl⟩ | ⟨_, hs⟩
  · exact ⟨u, h.get, h.path.symm⟩
  · exact ⟨v, hs, rfl⟩

theorem Shuts.mem_of_ne (h : Shuts s t i u f) {p : Path} (hp : p ∈ s.files)
    (hne : p ≠ u.tempPath) : p ∈ t.files := by
  rcases h.files with hf | ⟨hf, _⟩
  · rw [hf]
    exact mem_removeFile.mpr ⟨hp, hne⟩
  · rwa [hf]

theorem Shuts.mem_old (h : Shuts s t i u f) {p : Path} (hp : p ∈ t.files) :
    p ∈ s.files ∧ (p = u.tempPath → ¬ u.IsOpen) := by
  rcases h.files with hf | ⟨hf, hclosed⟩
  · rw [hf, mem_removeFile] at hp
    exact ⟨hp.1, fun he => absurd he hp.2⟩
  · rw [hf] at hp
    exact ⟨hp, fun _ => hclosed⟩

theorem Present.shuts (h : Present s) (hs : Shuts s t i u f) : Present t := by
  constructor
  · intro j k v w hv hw hpath
    obtain ⟨v', hv', hvp⟩ := hs.same_path hv
    obtain ⟨w', hw', hwp⟩ := hs.same_path hw
    exact h.distinct j k v' w' hv' hw' (by rw [hvp, hwp, hpath])
  · intro j v hv hopen
    rcases hs.cases hv with ⟨_, rfl⟩ | ⟨hj, hold⟩
    · exact absurd hopen hs.notOpen
    · refine hs.mem_of_ne (h.open_exist j v hold hopen) ?_
      exact fun he => hj (h.distinct j i v u hold hs.get he)

theorem Owned.shuts (h : Owned before waiting s) (hs : Shuts s t i u f) :
    Owned before waiting t := by
  refine ⟨h.toPresent.shuts hs, h.waiting_nodup, ?_, ?_, ?_⟩
  · intro j v hv
    obtain ⟨w, hw, hpath⟩ := hs.same_path hv
    rw [← hpath]
    exact h.waiting_notMem j w hw
  · intro p hp
    refine hs.mem_of_ne (h.waiting_exist p hp) ?_
    exact fun he => h.waiting_notMem i u hs.get (he ▸ hp)
  · intro p hp
    obtain ⟨hold, hclosed⟩ := hs.mem_old hp
    rcases h.owned p hold with hbefore | hwaiting | ⟨j, v, hv, hopen, hpath⟩
    · exact .inl hbefore
    · exact .inr (.inl hwaiting)
    · refine .inr (.inr ⟨j, v, ?_, hopen, hpath⟩)
      have hj : j ≠ i := by
        rintro rfl
        have huv : u = v := Option.some.inj (hs.get.symm.trans hv)
        subst huv
        exact hclosed hpath.symm hopen
      rw [hs.objects, List.getElem?_modify_ne _ _ fun he => hj he.symm]
      exact hv

theorem State.release_shuts (hget : st.objects[i]? = some u) (hheld : u.held = true) :
    Shuts st (st.release i) i u fun u => { u with held := false } := by
  have hrelease : st.release i = { st with
      files := if u.closed then st.files else removeFile u.tempPath st.files
      objects := st.setHeld i false } := by
    unfold State.release
    rw [hget]
    exact if_pos hheld
  rw [hrelease]
  refine ⟨hget, rfl, rfl, (fun h => nomatch h.1), ?_⟩
  dsimp only
  cases hclosed : u.closed with
  | true => exact .inr ⟨rfl, fun h => nomatch hclosed.symm.trans h.2⟩
  | false => exact .inl rfl

theorem Owned.release (h : Owned before waiting st) (i : Nat) :
    Owned before waiting (st.release i) := by
  cases hget : st.objects[i]? with
  | none =>
    refine h.of_eq ?_ ?_ <;> (unfold State.release; rw [hget])
  | some u =>
    cases hheld : u.held with
    | true => exact h.shuts (State.release_shuts hget hheld)
    | false =>
      refine h.of_eq ?_ ?_ <;> (unfold State.release; rw [hget]; simp [hheld])

/-- What every release keeps. -/
theorem State.releaseAll_induction {P : State → Prop} (hrelease : ∀ st i, P st → P (st.release i))
    (h : P st) : P st.releaseAll := by
  have hfold : ∀ (is : List Nat) (st : State), P st → P (is.foldl State.release st) := by
    intro is
    induction is with
    | nil => exact fun _ h => h
    | cons i rest ih => exact fun st h => ih _ (hrelease st i h)
  exact hfold _ st h

/-! ## Making the objects -/

theorem Owned.add {f : JustApi.Core.Multipart.UploadFile}
    (h : Owned before (f.tempPath :: waiting) st) :
    Owned before waiting { st with objects := st.objects ++ [UploadFile.new f] } := by
  obtain ⟨hhead, htail⟩ := List.nodup_cons.mp h.waiting_nodup
  have hcases : ∀ {j : Nat} {v : UploadFile}, (st.objects ++ [UploadFile.new f])[j]? = some v →
      j = st.objects.length ∧ v = UploadFile.new f ∨ st.objects[j]? = some v := by
    intro j v hv
    rcases Nat.lt_or_ge j st.objects.length with hlt | hge
    · rw [List.getElem?_append_left hlt] at hv
      exact .inr hv
    · rw [List.getElem?_append_right hge] at hv
      rw [List.getElem?_singleton] at hv
      split at hv
      · exact .inl ⟨by omega, (Option.some.inj hv).symm⟩
      · cases hv
  have hnew : ∀ (j : Nat) (v : UploadFile), st.objects[j]? = some v →
      v.tempPath ≠ (UploadFile.new f).tempPath :=
    fun j v hv he => h.waiting_notMem j v hv (he ▸ List.mem_cons_self)
  refine ⟨⟨?_, ?_⟩, htail, ?_, ?_, ?_⟩
  · intro j k v w hv hw hpath
    rcases hcases hv with ⟨hj, rfl⟩ | hv <;> rcases hcases hw with ⟨hk, rfl⟩ | hw
    · rw [hj, hk]
    · exact absurd hpath.symm (hnew k w hw)
    · exact absurd hpath (hnew j v hv)
    · exact h.distinct j k v w hv hw hpath
  · intro j v hv hopen
    rcases hcases hv with ⟨_, rfl⟩ | hv
    · exact h.waiting_exist _ List.mem_cons_self
    · exact h.open_exist j v hv hopen
  · intro j v hv
    rcases hcases hv with ⟨_, rfl⟩ | hv
    · exact hhead
    · exact fun hmem => h.waiting_notMem j v hv (List.mem_cons_of_mem _ hmem)
  · exact fun p hp => h.waiting_exist p (List.mem_cons_of_mem _ hp)
  · intro p hp
    rcases h.owned p hp with hbefore | hwaiting | ⟨j, v, hv, howner⟩
    · exact .inl hbefore
    · rcases List.mem_cons.mp hwaiting with rfl | hwaiting
      · refine .inr (.inr ⟨st.objects.length, UploadFile.new f, ?_, ⟨rfl, rfl⟩, rfl⟩)
        exact List.getElem?_concat_length
      · exact .inr (.inl hwaiting)
    · refine .inr (.inr ⟨j, v, ?_, howner⟩)
      rw [List.getElem?_append_left (List.getElem?_eq_some_iff.mp hv).1]
      exact hv

theorem addFile_owned (stored : JustApi.Core.Multipart.UploadFile → Bool) (d : FormDict)
    {f : JustApi.Core.Multipart.UploadFile} (h : Owned before (f.tempPath :: waiting) st) :
    Owned before waiting (addFile stored (d, st) f).2 := by
  unfold addFile
  dsimp only
  split
  · split
    · exact h.add.release _
    · exact h.add
  · exact h.add.release _

theorem foldl_addFile_owned (stored : JustApi.Core.Multipart.UploadFile → Bool)
    (uploads : List JustApi.Core.Multipart.UploadFile) (d : FormDict)
    (h : Owned before (uploads.map JustApi.Core.Multipart.UploadFile.tempPath ++ waiting) st) :
    Owned before waiting (uploads.foldl (addFile stored) (d, st)).2 := by
  induction uploads generalizing d st with
  | nil => exact h
  | cons f rest ih => exact ih _ (addFile_owned stored d h)

theorem owned_of_kept {uploads : List JustApi.Core.Multipart.UploadFile} {files : List Path}
    (h : Kept before uploads files) :
    Owned before (uploads.map JustApi.Core.Multipart.UploadFile.tempPath ++ [])
      ⟨files, [], []⟩ := by
  rw [List.append_nil]
  refine ⟨⟨?_, ?_⟩, h.nodup, ?_, ?_, ?_⟩
  · exact fun _ _ _ _ hu => nomatch hu
  · exact fun _ _ hu => nomatch hu
  · exact fun _ _ hu => nomatch hu
  · intro p hp
    show p ∈ files
    rw [h.files_eq]
    exact List.mem_append_left _ (List.mem_reverse.mpr hp)
  · intro p hp
    have hp : p ∈ files := hp
    rw [h.files_eq] at hp
    rcases List.mem_append.mp hp with hp | hp
    · exact .inr (.inl (List.mem_reverse.mp hp))
    · exact .inl hp

/-! ## Steps -/

namespace State

/-- An operation of the blocking pool is for one object. -/
theorem Performs.unique {e : Event} {op op' : FileOp} {u u' : UploadFile}
    (h : s.Performs e op u) (h' : s.Performs e op' u') : op = op' ∧ u = u' := by
  obtain ⟨job, i, rfl, hjob, hu⟩ := h
  obtain ⟨job', i', he, hjob', hu'⟩ := h'
  cases he
  rw [hjob] at hjob'
  cases hjob'
  rw [hu] at hu'
  exact ⟨rfl, Option.some.inj hu'⟩

/-- What a step can do: nothing to files and objects, write to an open file, close one that
is not closed, or drop an object. -/
theorem step_cases {e : Event} (h : s.Step e t) :
    ((∀ op u, s.Performs e op u → u.closed = true) ∧
      t.files = s.files ∧ t.objects = s.objects) ∨
    (∃ u, s.Performs e .write u ∧ u.closed = false ∧ t.objects = s.objects ∧
      t.files = createFile u.tempPath s.files) ∨
    (∃ u i, s.Performs e .close u ∧ u.closed = false ∧
      t.files = removeFile u.tempPath s.files ∧
      Shuts s t i u fun u => { u with closed := true }) ∨
    ∃ u i, (∀ op u, ¬ s.Performs e op u) ∧ Shuts s t i u fun u => { u with held := false } := by
  cases e with
  | call op i =>
    refine .inl ⟨fun _ _ hp => ?_, ?_⟩
    · obtain ⟨_, _, he, _⟩ := hp
      cases he
    · simp only [Step, step, Option.bind_eq_bind, Option.bind_eq_some_iff] at h
      obtain ⟨u, _, h⟩ := h
      split at h
      · cases h
        exact ⟨rfl, rfl⟩
      · cases h
  | perform job =>
    simp only [Step, step, Option.bind_eq_bind, Option.bind_eq_some_iff] at h
    obtain ⟨⟨op, i⟩, hjob, u, hu, h⟩ := h
    have hperforms : s.Performs (.perform job) op u := ⟨job, i, rfl, hjob, hu⟩
    have ht := (Option.some.inj h).symm
    unfold perform at ht
    cases hclosed : u.closed with
    | true =>
      rw [if_pos hclosed] at ht
      refine .inl ⟨fun op' u' hp => ?_, by rw [ht], by rw [ht]⟩
      rw [← (hperforms.unique hp).2]
      exact hclosed
    | false =>
      rw [if_neg (by rw [hclosed]; exact Bool.false_ne_true)] at ht
      cases op with
      | write => exact .inr (.inl ⟨u, hperforms, hclosed, by rw [ht], by rw [ht]⟩)
      | close =>
        have hshuts : Shuts s t i u fun u => { u with closed := true } := by
          refine ⟨hu, by rw [ht], rfl, ?_, .inl (by rw [ht])⟩
          exact fun hopen => nomatch hopen.2
        exact .inr (.inr (.inl ⟨u, i, hperforms, hclosed, by rw [ht], hshuts⟩))
  | release i =>
    simp only [Step, step, Option.bind_eq_bind, Option.bind_eq_some_iff] at h
    obtain ⟨u, hu, h⟩ := h
    split at h
    · rename_i hheld
      cases h
      refine .inr (.inr (.inr ⟨u, i, fun _ _ hp => ?_, State.release_shuts hu hheld⟩))
      obtain ⟨_, _, he, _⟩ := hp
      cases he
    · cases h

end State

theorem mem_createFile {p path : Path} {files : List Path} (h : p ∈ files) :
    p ∈ State.createFile path files := by
  unfold State.createFile
  split
  · exact h
  · exact List.mem_cons_of_mem _ h

theorem State.Performs.get {e : Event} {op : FileOp} (h : s.Performs e op u) :
    ∃ i : Nat, s.objects[i]? = some u := by
  obtain ⟨_, i, _, _, hu⟩ := h
  exact ⟨i, hu⟩

/-- Where no write comes too late, files do not lose their objects. -/
theorem Owned.step {e : Event} (h : Owned before waiting s) (hstep : s.Step e t)
    (hwrite : s.WritesInTime e) : Owned before waiting t := by
  rcases State.step_cases hstep with ⟨_, hfiles, hobjects⟩ |
    ⟨u, hperforms, hclosed, hobjects, hfiles⟩ | ⟨u, i, _, _, _, hshuts⟩ | ⟨u, i, _, hshuts⟩
  · exact h.of_eq hfiles hobjects
  · obtain ⟨i, hu⟩ := hperforms.get
    have hheld : u.held = true := by
      rcases hwrite u hperforms with hheld | hc
      · exact hheld
      · exact nomatch hclosed.symm.trans hc
    -- the file that is written to is there
    refine h.of_eq (hfiles.trans ?_) hobjects
    exact if_pos (h.open_exist i u hu ⟨hheld, hclosed⟩)
  · exact h.shuts hshuts
  · exact h.shuts hshuts

theorem Present.step {e : Event} (h : Present s) (hstep : s.Step e t) : Present t := by
  rcases State.step_cases hstep with ⟨_, hfiles, hobjects⟩ | ⟨u, _, _, hobjects, hfiles⟩ |
    ⟨u, i, _, _, _, hshuts⟩ | ⟨u, i, _, hshuts⟩
  · exact h.of_eq hfiles hobjects
  · constructor
    · rw [hobjects]
      exact h.distinct
    · intro j v hv hopen
      rw [hobjects] at hv
      rw [hfiles]
      exact mem_createFile (h.open_exist j v hv hopen)
  · exact h.shuts hshuts
  · exact h.shuts hshuts

theorem Owned.cleanedUp (h : Owned before [] st) : st.CleanedUp before := by
  intro hnone p hp
  rcases h.owned p hp with hbefore | hwaiting | ⟨i, u, hu, hopen, _⟩
  · exact hbefore
  · exact absurd hwaiting List.not_mem_nil
  · exact nomatch (hnone u (List.mem_of_getElem? hu)).symm.trans hopen.1

/-! ## Objects that are not closed behind Python's back -/

/-- No object is closed and not dropped. -/
structure Unclosed (st : State) : Prop extends Present st where
  held_open : ∀ (i : Nat) (u : UploadFile), st.objects[i]? = some u → u.held = true →
    u.closed = false

theorem Unclosed.heldExist (h : Unclosed st) : st.HeldExist := by
  intro u hu hheld
  obtain ⟨i, hi⟩ := List.mem_iff_getElem?.mp hu
  exact h.open_exist i u hi ⟨hheld, h.held_open i u hi hheld⟩

theorem Unclosed.step {e : Event} (h : Unclosed s) (hstep : s.Step e t)
    (hclose : s.ClosesNoHeld e) : Unclosed t := by
  refine ⟨h.toPresent.step hstep, ?_⟩
  intro j v hv hheld
  rcases State.step_cases hstep with ⟨_, _, hobjects⟩ | ⟨_, _, _, hobjects, _⟩ |
    ⟨u, i, hperforms, hclosed, _, hshuts⟩ | ⟨u, i, _, hshuts⟩
  · exact h.held_open j v (hobjects ▸ hv) hheld
  · exact h.held_open j v (hobjects ▸ hv) hheld
  · rcases hshuts.cases hv with ⟨_, rfl⟩ | ⟨_, hold⟩
    · exact absurd ⟨hheld, hclosed⟩ (hclose u hperforms)
    · exact h.held_open j v hold hheld
  · rcases hshuts.cases hv with ⟨_, rfl⟩ | ⟨_, hold⟩
    · cases hheld
    · exact h.held_open j v hold hheld

/-- A held object that is closed has no file. -/
theorem State.closesNoHeld_of_heldExist {e : Event} (hstep : s.Step e t) (h : t.HeldExist) :
    s.ClosesNoHeld e := by
  intro u hperforms hopen
  rcases State.step_cases hstep with ⟨hnone, _⟩ | ⟨u', hwrite, _⟩ |
    ⟨u', i, hperforms', _, hfiles, hshuts⟩ | ⟨_, _, hnone, _⟩
  · exact nomatch (hnone .close u hperforms).symm.trans hopen.2
  · cases (hperforms.unique hwrite).1
  · obtain ⟨_, rfl⟩ := hperforms.unique hperforms'
    have hclosed : t.objects[i]? = some { u with closed := true } := by
      rw [hshuts.objects, List.getElem?_modify_eq, hshuts.get]
      rfl
    have hexists := h _ (List.mem_of_getElem? hclosed) hopen.1
    rw [hfiles, mem_removeFile] at hexists
    exact hexists.2 rfl
  · exact hnone .close u hperforms

/-! ## Exits of the dispatcher -/

section Handling

variable {E H S : Type} {mx : Matchit E Nat} {parsers : Parsers MultipartForm}
  {server : Server H S} {rejects : S → Bytes → Option String} {host : Host}
  {stored : JustApi.Core.Multipart.UploadFile → Bool} {scheme : String} {req : Incoming}

theorem needsContentType_of_isMultipart (hm : isMultipart (contentType req) = true) :
    needsContentType req = false := by
  unfold contentType at hm
  unfold needsContentType
  cases hct : req.headers.lookup "content-type" with
  | none =>
    rw [hct] at hm
    exact absurd hm (by decide)
  | some value => exact Bool.and_false _

theorem filesParsed_eq (hm : isMultipart (contentType req) = true) :
    filesParsed host req before =
      (parseMultipart host before req.body ((contentType req).getD "")).2 := by
  unfold filesParsed
  rw [needsContentType_of_isMultipart hm, hm]
  rfl

/-- A form is parsed before anything else is looked at. -/
theorem nativeBody_withHost (hm : isMultipart (contentType req) = true) :
    nativeBody (withHost parsers host before) server req =
      (multipartForm (withHost parsers host before) req.body ((contentType req).getD "")).bind
        fun form => .ok ([], some form) := by
  unfold nativeBody
  rw [if_pos hm]
  rfl

theorem multipartForm_of_ok {ct : String} {form : MultipartForm}
    (h : (parseMultipart host before req.body ct).1 = .ok form) :
    multipartForm (withHost parsers host before) req.body ct = .ok form := by
  unfold multipartForm
  dsimp only [withHost]
  rw [h]

theorem multipartForm_of_error (parsers : Parsers MultipartForm) {ct e : String}
    (h : (parseMultipart host before req.body ct).1 = .error e) :
    ∃ status body, multipartForm (withHost parsers host before) req.body ct =
      .error (.json status body) := by
  unfold multipartForm
  dsimp only [withHost]
  rw [h]
  dsimp only
  split
  · exact ⟨_, _, rfl⟩
  · exact ⟨_, _, rfl⟩

/-- The handler is called with the form. -/
theorem nativeExit_of_reaches (scheme : String) (hm : isMultipart (contentType req) = true)
    (h : ReachesHandler mx parsers server host req before) :
    ∃ call form, nativeExit mx (withHost parsers host before) server scheme req = .python call ∧
      call.form = some form ∧
      (parseMultipart host before req.body ((contentType req).getD "")).1 = .ok form := by
  obtain ⟨m, ⟨form, hform⟩, hroute, hbatch, hsse, hcrud, hfast, hquery, hschema⟩ := h
  have hmatched : matched (F := MultipartForm) mx server req = .ok m := by
    unfold matched
    rw [hroute]
  have hfast' : tryNativeFastPath (withHost parsers host before) server m.handler [] = none :=
    hfast
  have hquery' : tryNativeFastPathQuery (withHost parsers host before) server m.handler
      req.query = none := hquery
  unfold nativeExit
  rw [if_neg (by rw [needsContentType_of_isMultipart hm]; exact Bool.false_ne_true),
    nativeBody_withHost hm, multipartForm_of_ok hform]
  dsimp only [Except.bind]
  rw [hmatched]
  dsimp only
  rw [hbatch, hsse, hcrud]
  dsimp only
  unfold answerById
  rw [hfast', hquery']
  cases hjson : server.tables.schemaJsons[m.handler]?.join with
  | none => exact ⟨_, form, rfl, rfl, hform⟩
  | some json =>
    have hvalid : validateBody (withHost parsers host before) server m.handler [] json = .ok () :=
      hschema json hjson
    dsimp only
    rw [hvalid]
    exact ⟨_, form, rfl, rfl, hform⟩

theorem reaches_of_nativeExit (hm : isMultipart (contentType req) = true)
    {call : PythonCall MultipartForm}
    (h : nativeExit mx (withHost parsers host before) server scheme req = .python call) :
    ReachesHandler mx parsers server host req before := by
  unfold nativeExit at h
  rw [if_neg (by rw [needsContentType_of_isMultipart hm]; exact Bool.false_ne_true),
    nativeBody_withHost hm] at h
  cases hform : (parseMultipart host before req.body ((contentType req).getD "")).1 with
  | error e =>
    obtain ⟨status, body, hmultipart⟩ := multipartForm_of_error parsers hform
    rw [hmultipart] at h
    cases h
  | ok form =>
    rw [multipartForm_of_ok hform] at h
    dsimp only [Except.bind] at h
    unfold matched at h
    cases hroute : server.tables.router.rawResolve mx req.method req.path with
    | error e =>
      rw [hroute] at h
      cases e <;> cases h
    | ok m =>
      rw [hroute] at h
      dsimp only at h
      split at h
      · cases h
      · rename_i hbatch
        split at h
        · cases h
        · rename_i hsse
          split at h
          · cases h
          · rename_i hcrud
            unfold answerById at h
            split at h
            · cases h
            · rename_i hfast
              split at h
              · cases h
              · rename_i hquery
                refine ⟨m, ⟨form, hform⟩, hroute, hbatch, hsse, hcrud, hfast, hquery, ?_⟩
                intro json hjson
                rw [hjson] at h
                dsimp only at h
                split at h
                · rename_i hvalid
                  exact hvalid
                · cases h

theorem dispatchPythonHandler_owned {call : PythonCall MultipartForm} {form : MultipartForm}
    {files : List Path} (hform : call.form = some form) (h : Kept before form.files files) :
    Owned before [] (dispatchPythonHandler server rejects stored call files) := by
  have hdict : Owned before [] (formDict stored form files).2 :=
    foldl_addFile_owned stored form.files _ (owned_of_kept h)
  unfold dispatchPythonHandler
  rw [hform]
  dsimp only
  split
  · exact hdict
  · exact State.releaseAll_induction (fun _ i h => h.release i) hdict

/-- Elsewhere the new files are left and belong to nothing. -/
theorem nativeHandler_of_not_reaches (hm : isMultipart (contentType req) = true)
    (h : ¬ ReachesHandler mx parsers server host req before) :
    nativeHandler mx parsers server rejects host stored scheme req before =
      ⟨(parseMultipart host before req.body ((contentType req).getD "")).2, [], []⟩ := by
  unfold nativeHandler
  rw [filesParsed_eq hm]
  dsimp only
  split
  · rename_i call hexit
    exact absurd (reaches_of_nativeExit hm hexit) h
  · rfl

/-- Where the handler is reached, or no file arrives, all new files belong to objects. -/
theorem nativeHandler_owned (hnew : host.CreatesNew)
    (hm : isMultipart (contentType req) = true)
    (h : ReachesHandler mx parsers server host req before ∨
      ¬ FileArrives host before req.body ((contentType req).getD "")) :
    Owned before [] (nativeHandler mx parsers server rejects host stored scheme req before) := by
  obtain ⟨uploads, hkept, harrives, hfiles⟩ := JustApi.Core.Multipart.parseMultipart_kept hnew
    before req.body ((contentType req).getD "")
  by_cases hreach : ReachesHandler mx parsers server host req before
  · obtain ⟨call, form, hexit, hcall, hform⟩ := nativeExit_of_reaches scheme hm hreach
    unfold nativeHandler
    rw [hexit, filesParsed_eq hm]
    rw [← hfiles form hform] at hkept
    exact dispatchPythonHandler_owned hcall hkept
  · have hnone : uploads = [] := by
      by_contra hne
      exact (h.resolve_left hreach) (harrives.mp hne)
    subst hnone
    rw [nativeHandler_of_not_reaches hm hreach]
    exact owned_of_kept hkept

/-- A file that no handler gets to see stays. -/
theorem not_cleanedUp (hnew : host.CreatesNew) (hm : isMultipart (contentType req) = true)
    (hreach : ¬ ReachesHandler mx parsers server host req before)
    (harrives : FileArrives host before req.body ((contentType req).getD "")) :
    ¬ (nativeHandler mx parsers server rejects host stored scheme req before).CleanedUp
      before := by
  obtain ⟨uploads, hkept, hiff, _⟩ := JustApi.Core.Multipart.parseMultipart_kept hnew before
    req.body ((contentType req).getD "")
  obtain ⟨f, hf⟩ := List.exists_mem_of_ne_nil _ (hiff.mpr harrives)
  rw [nativeHandler_of_not_reaches hm hreach]
  intro hclean
  refine hkept.notMem f hf (hclean (fun _ hu => absurd hu List.not_mem_nil) f.tempPath ?_)
  show f.tempPath ∈ (parseMultipart host before req.body ((contentType req).getD "")).2
  rw [hkept.files_eq]
  exact List.mem_append_left _ (List.mem_reverse.mpr (List.mem_map_of_mem hf))

/-! ## Objects as they are made -/

/-- No object is closed yet. -/
def NoneClosed (st : State) : Prop := ∀ u ∈ st.objects, u.closed = false

theorem NoneClosed.release (h : NoneClosed st) (i : Nat) : NoneClosed (st.release i) := by
  unfold State.release
  split
  · exact h
  · split
    · intro v hv
      obtain ⟨j, hj⟩ := List.mem_iff_getElem?.mp hv
      change (st.objects.modify i fun u => { u with held := false })[j]? = some v at hj
      rw [List.getElem?_modify] at hj
      obtain ⟨w, hw, rfl⟩ := Option.map_eq_some_iff.mp hj
      have hopen := h w (List.mem_of_getElem? hw)
      split
      · exact hopen
      · exact hopen
    · exact h

theorem NoneClosed.add (h : NoneClosed st) (f : JustApi.Core.Multipart.UploadFile) :
    NoneClosed { st with objects := st.objects ++ [UploadFile.new f] } := by
  intro u hu
  rcases List.mem_append.mp hu with hu | hu
  · exact h u hu
  · rw [List.mem_singleton.mp hu]
    rfl

theorem addFile_noneClosed (d : FormDict) (f : JustApi.Core.Multipart.UploadFile)
    (h : NoneClosed st) : NoneClosed (addFile stored (d, st) f).2 := by
  unfold addFile
  dsimp only
  split
  · split
    · exact (h.add f).release _
    · exact h.add f
  · exact (h.add f).release _

theorem foldl_addFile_noneClosed (uploads : List JustApi.Core.Multipart.UploadFile)
    (d : FormDict) (h : NoneClosed st) :
    NoneClosed (uploads.foldl (addFile stored) (d, st)).2 := by
  induction uploads generalizing d st with
  | nil => exact h
  | cons f rest ih => exact ih _ (addFile_noneClosed d f h)

theorem dispatchPythonHandler_noneClosed (call : PythonCall MultipartForm) (files : List Path) :
    NoneClosed (dispatchPythonHandler server rejects stored call files) := by
  have hempty : NoneClosed ⟨files, [], []⟩ := fun _ hu => absurd hu List.not_mem_nil
  unfold dispatchPythonHandler
  split
  · exact hempty
  · rename_i form _
    have hdict : NoneClosed (formDict stored form files).2 :=
      foldl_addFile_noneClosed form.files _ hempty
    dsimp only
    split
    · exact hdict
    · exact State.releaseAll_induction (fun _ i h => h.release i) hdict

theorem nativeHandler_unclosed (hnew : host.CreatesNew)
    (hm : isMultipart (contentType req) = true) :
    Unclosed (nativeHandler mx parsers server rejects host stored scheme req before) := by
  by_cases hreach : ReachesHandler mx parsers server host req before
  · refine ⟨(nativeHandler_owned hnew hm (.inl hreach)).toPresent, ?_⟩
    obtain ⟨call, _, hexit, _⟩ := nativeExit_of_reaches scheme hm hreach
    have hnone : NoneClosed
        (nativeHandler mx parsers server rejects host stored scheme req before) := by
      unfold nativeHandler
      rw [hexit]
      exact dispatchPythonHandler_noneClosed call _
    exact fun _ u hu _ => hnone u (List.mem_of_getElem? hu)
  · rw [nativeHandler_of_not_reaches hm hreach]
    refine ⟨⟨?_, ?_⟩, ?_⟩
    · exact fun _ _ _ _ hu => nomatch hu
    · exact fun _ _ hu => nomatch hu
    · exact fun _ _ hu => nomatch hu

/-! ## Runs -/

/-- In every run in which no write comes after its object, the files of a request are gone
with the objects exactly if its handler is reached or no file arrives whole; and in every
run files stay with their objects exactly if Python closes none that it holds. -/
theorem uploads_cleaned_up_iff (hnew : host.CreatesNew)
    (hm : isMultipart (contentType req) = true) {tr : List (Event × State)}
    (hrun : Along State.Step
      (nativeHandler mx parsers server rejects host stored scheme req before) tr) :
    (Along (fun s e _ => s.WritesInTime e)
        (nativeHandler mx parsers server rejects host stored scheme req before) tr →
      ((∀ st ∈ visited
          (nativeHandler mx parsers server rejects host stored scheme req before) tr,
          st.CleanedUp before) ↔
        ReachesHandler mx parsers server host req before ∨
          ¬ FileArrives host before req.body ((contentType req).getD ""))) ∧
    ((∀ st ∈ visited (nativeHandler mx parsers server rejects host stored scheme req before) tr,
        st.HeldExist) ↔
      Along (fun s e _ => s.ClosesNoHeld e)
        (nativeHandler mx parsers server rejects host stored scheme req before) tr) := by
  constructor
  · intro hwrites
    constructor
    · intro hclean
      by_contra hnot
      obtain ⟨hreach, harrives⟩ := not_or.mp hnot
      exact not_cleanedUp hnew hm hreach (not_not.mp harrives)
        (hclean _ (start_mem_visited _ tr))
    · intro hcond st hst
      have howned : Owned before [] st := (hrun.and hwrites).invariant
        (fun _ _ _ h hs => h.step hs.1 hs.2) (nativeHandler_owned hnew hm hcond) st hst
      exact howned.cleanedUp
  · exact hrun.forall_visited_iff (fun _ _ _ h hs hc => h.step hs hc)
      (fun _ _ _ _ hs ht => State.closesNoHeld_of_heldExist hs ht)
      (fun _ h => h.heldExist) (nativeHandler_unclosed hnew hm)

end Handling

section Items

/-- What a browser sends of a file `a.txt`. -/
def fileBody : Bytes := asBytes ("--b\r\nContent-Disposition: form-data; name=\"file\"; " ++
  "filename=\"a.txt\"\r\n\r\nhi\r\n--b--\r\n")

def filePart : Part :=
  ⟨some "file", some "a.txt", none,
    [("content-disposition", "form-data; name=\"file\"; filename=\"a.txt\"")],
    [.ok (asBytes "hi")], .ok "hi"⟩

/-- A host on which the one body is read. -/
def fileHost : Host where
  multer body boundary :=
    if body = fileBody ∧ boundary = "b" then ([filePart], .ok ())
    else ([], .error "incomplete multipart stream")
  newTemp files := if "/tmp/.tmpA" ∈ files then .error "exists" else .ok "/tmp/.tmpA"
  writeAll _ _ _ := .ok ()
  keep _ := .ok ()
  maxUploadSize := 100

theorem fileHost_createsNew : fileHost.CreatesNew := by
  intro files path h
  unfold fileHost at h
  dsimp only at h
  split at h
  · cases h
  · rename_i hnot
    cases h
    exact hnot

def noParsers : Parsers MultipartForm :=
  ⟨fun _ _ => .ok (), fun _ => .error "", fun _ _ => .error "", some⟩

def postFile (path : String) : Incoming :=
  ⟨.post, path, [], [("content-type", "multipart/form-data; boundary=b")], fileBody, none, "1.1",
    none⟩

/-- The file is there while the handler of `/items` has its `UploadFile`. -/
def itemsState (path : String) : State :=
  nativeHandler plainPaths noParsers itemsServer (fun _ _ => none) fileHost (fun _ => true) "http"
    (postFile path) []

theorem uploads_cleaned_up_items :
    (∀ st ∈ visited (itemsState "/items") [(Event.release 0, (itemsState "/items").release 0)],
      st.CleanedUp []) ∧
    ∀ st ∈ visited (itemsState "/items") [(Event.release 0, (itemsState "/items").release 0)],
      st.HeldExist := by
  have hm : isMultipart (contentType (postFile "/items")) = true := by decide +kernel
  have hrun : Along State.Step (itemsState "/items")
      [(Event.release 0, (itemsState "/items").release 0)] := by
    with_unfolding_all exact ⟨rfl, trivial⟩
  obtain ⟨hclean, hexist⟩ := uploads_cleaned_up_iff fileHost_createsNew hm hrun
  refine ⟨(hclean ⟨fun _ hp => ?_, trivial⟩).mpr (.inl ?_), hexist.mpr ⟨fun _ hp => ?_, trivial⟩⟩
  · obtain ⟨_, _, he, _⟩ := hp
    cases he
  · with_unfolding_all exact ⟨⟨0, []⟩, ⟨_, rfl⟩, rfl, rfl, rfl, rfl, rfl, rfl, fun _ h => nomatch h⟩
  · obtain ⟨_, _, he, _⟩ := hp
    cases he

/-- Where there is no route a file is left. -/
theorem unrouted_upload_left : ¬ (itemsState "/none").CleanedUp [] := by
  have hstate : ((itemsState "/none").files, (itemsState "/none").objects.length) =
      (["/tmp/.tmpA"], 0) := by
    decide +kernel
  obtain ⟨hfiles, hlength⟩ := Prod.mk.inj hstate
  intro h
  have hleft : "/tmp/.tmpA" ∈ (itemsState "/none").files := by
    rw [hfiles]
    exact .head _
  have hnone : ∀ u ∈ (itemsState "/none").objects, u.held = false := by
    intro u hu
    rw [List.length_eq_zero_iff.mp hlength] at hu
    cases hu
  exact List.not_mem_nil (h hnone _ hleft)

end Items

end JustApi.Py.Uploads
