import Mathlib.Data.List.Basic
import JustApi.Core.StaticFiles

/-! # Entity tags

A file changes over time, and a client asks again with the tag it was given. The tag is
made of the length of the file and of the seconds since its last modification. -/
namespace JustApi.Core.StaticFiles
open JustApi.Lib.Text JustApi.Lib.Result JustApi.Core.Http

/-! ## Numbers in base 16 -/

theorem digitChar_inj : ∀ d < 16, ∀ e < 16, Nat.digitChar d = Nat.digitChar e → d = e := by
  decide

theorem hex_of_lt {n : Nat} (h : n < 16) : hex n = [Nat.digitChar n] :=
  Nat.toDigits_of_lt_base h

theorem hex_of_le {n : Nat} (h : 16 ≤ n) : hex n = hex (n / 16) ++ [Nat.digitChar (n % 16)] :=
  Nat.toDigits_of_base_le (by decide) h

theorem hex_ne_nil (n : Nat) : hex n ≠ [] := Nat.toDigits_ne_nil

theorem hex_inj {m n : Nat} (h : hex m = hex n) : m = n := by
  induction m using Nat.strongRecOn generalizing n with
  | ind m ih =>
    rcases Nat.lt_or_ge m 16 with hm | hm <;> rcases Nat.lt_or_ge n 16 with hn | hn
    · rw [hex_of_lt hm, hex_of_lt hn, List.singleton_inj] at h
      exact digitChar_inj m hm n hn h
    · rw [hex_of_lt hm, hex_of_le hn] at h
      exact absurd (List.append_eq_singleton_iff.mp h.symm) (by simp [hex_ne_nil])
    · rw [hex_of_le hm, hex_of_lt hn] at h
      exact absurd (List.append_eq_singleton_iff.mp h) (by simp [hex_ne_nil])
    · rw [hex_of_le hm, hex_of_le hn] at h
      obtain ⟨hfront, hlast⟩ := List.append_inj' h rfl
      have hdiv : m / 16 = n / 16 := ih (m / 16) (by omega) hfront
      have hmod : m % 16 = n % 16 :=
        digitChar_inj _ (Nat.mod_lt _ (by decide)) _ (Nat.mod_lt _ (by decide))
          (List.singleton_inj.mp hlast)
      omega

theorem mem_hex {n : Nat} {c : Char} (h : c ∈ hex n) : ∃ d < 16, c = Nat.digitChar d := by
  induction n using Nat.strongRecOn with
  | ind n ih =>
    rcases Nat.lt_or_ge n 16 with hn | hn
    · rw [hex_of_lt hn, List.mem_singleton] at h
      exact ⟨n, hn, h⟩
    · rw [hex_of_le hn, List.mem_append, List.mem_singleton] at h
      rcases h with h | h
      · exact ih (n / 16) (by omega) h
      · exact ⟨n % 16, Nat.mod_lt _ (by decide), h⟩

theorem digitChar_visible : ∀ d < 16, Nat.digitChar d ≠ '-' ∧
    32 ≤ (Nat.digitChar d).toNat ∧ (Nat.digitChar d).toNat < 127 := by
  decide

theorem dash_notMem_hex (n : Nat) : '-' ∉ hex n := by
  intro h
  obtain ⟨d, hd, he⟩ := mem_hex h
  exact (digitChar_visible d hd).1 he.symm

/-! ## Tags -/

/-- How many whole seconds ago the file was modified, as far as that is known. -/
def age (now : Int) (m : Metadata) : Nat := (m.modified.map (elapsedSecs now)).getD 0

theorem toList_makeEtag (now : Int) (m : Metadata) :
    (makeEtag now m).toList = '"' :: (hex m.len ++ '-' :: (hex (age now m) ++ ['"'])) := by
  simp [makeEtag, age]

theorem makeEtag_inj {now now' : Int} {m m' : Metadata} :
    makeEtag now m = makeEtag now' m' ↔ m.len = m'.len ∧ age now m = age now' m' := by
  rw [← String.toList_inj, toList_makeEtag, toList_makeEtag]
  constructor
  · intro h
    have hnot : '-' ∉ hex (age now m) ++ ['"'] := by
      simp [dash_notMem_hex]
    obtain ⟨hlen, -, hage⟩ := (List.append_cons_inj_of_notMem (dash_notMem_hex m.len) hnot).mp
      (List.cons.inj h).2
    exact ⟨hex_inj hlen, hex_inj (List.append_cancel_right hage)⟩
  · intro h
    rw [h.1, h.2]

/-- A tag can be sent back in a header. -/
theorem toStr_makeEtag (now : Int) (m : Metadata) :
    toStr (makeEtag now m) = some (makeEtag now m) := by
  refine if_pos (List.all_eq_true.mpr fun c hc => decide_eq_true (.inr ?_))
  have hhex : ∀ n, c ∈ hex n → 32 ≤ c.toNat ∧ c.toNat < 127 := by
    intro n hn
    obtain ⟨d, hd, rfl⟩ := mem_hex hn
    exact (digitChar_visible d hd).2
  rw [toList_makeEtag] at hc
  simp only [List.mem_cons, List.mem_append, List.not_mem_nil, or_false] at hc
  rcases hc with rfl | hc | rfl | hc | rfl
  · decide
  · exact hhex _ hc
  · decide
  · exact hhex _ hc
  · decide

/-! ## Asking again -/

/-- The file as it is from some time on. -/
structure Version where
  since : Int
  metadata : Metadata

/-- The latest version at a time. -/
def current (history : List Version) (now : Int) : Option Metadata :=
  ((history.filter fun v => v.since ≤ now).getLast?).map Version.metadata

/-- The file system with the file as it is at a time. -/
def fileAt (fs : FileSystem) (path : List Char) (history : List Version) (now : Int) : FileSystem :=
  { fs with metadata := fun p => if p = path then current history now else fs.metadata p }

/-- No version begins in between. -/
def Unmodified (history : List Version) (t₁ t₂ : Int) : Prop :=
  ∀ v ∈ history, v.since ≤ t₁ ∨ t₂ < v.since

/-- The modification time is a later one. -/
def Modified (m₁ m₂ : Metadata) : Prop :=
  ∃ s₁ ∈ m₁.modified, ∃ s₂ ∈ m₂.modified, s₁ < s₂

/-- The client is told that its copy is good. -/
def Confirmed (dir : StaticDir) (fs : FileSystem) (now : Int) (uriPath : List Char)
    (tag : String) : Prop :=
  dir.handle fs now uriPath [("if-none-match", tag)] = .ok (notModified tag)

/-- A tag that was served at one time is confirmed at another if the file has not been
modified since, and not if it has. -/
def RevalidatesRight (dir : StaticDir) (fs : FileSystem) (uriPath path : List Char)
    (history : List Version) (t₁ t₂ : Int) (m₁ m₂ : Metadata) : Prop :=
  ∀ headers resp tag, dir.handle (fileAt fs path history t₁) t₁ uriPath headers = .ok resp →
    resp.headers.lookup "etag" = some tag →
      (Unmodified history t₁ t₂ →
        tag = makeEtag t₂ m₂ ∧ Confirmed dir (fileAt fs path history t₂) t₂ uriPath tag) ∧
      (Modified m₁ m₂ →
        tag ≠ makeEtag t₂ m₂ ∧ ¬ Confirmed dir (fileAt fs path history t₂) t₂ uriPath tag)

variable {dir : StaticDir} {fs : FileSystem} {uriPath path : List Char} {history : List Version}
  {now t₁ t₂ : Int} {m m₁ m₂ : Metadata} {headers : Headers} {resp : Response} {tag : String}

theorem current_eq (h : Unmodified history t₁ t₂) (hle : t₁ ≤ t₂) :
    current history t₂ = current history t₁ := by
  unfold current
  rw [List.filter_congr fun v hv => ?_]
  rcases h v hv with h | h <;> simp only [decide_eq_decide] <;> omega

theorem etag_of_serveRange {contentType : String} {totalLen : Nat} {range : ByteRange}
    (h : StaticDir.serveRange fs path tag contentType totalLen range = .ok resp) :
    resp.headers.lookup "etag" = some tag := by
  obtain ⟨bytes, -, h⟩ := bind_eq_ok.mp h
  obtain ⟨buf, -, rfl⟩ := map_eq_ok.mp h
  rfl

/-- Every response made of the file carries its tag. -/
theorem etag_of_handle (hresolve : dir.resolve fs uriPath = some path)
    (hm : fs.metadata path = some m) (hfile : m.isFile = true)
    (h : dir.handle fs now uriPath headers = .ok resp) :
    resp.headers.lookup "etag" = some (makeEtag now m) := by
  unfold StaticDir.handle at h
  simp only [hresolve, hm, hfile, Bool.true_eq_false, if_false] at h
  split at h
  · cases h
    rfl
  · split at h
    · exact etag_of_serveRange h
    · obtain ⟨body, -, rfl⟩ := map_eq_ok.mp h
      rfl

/-- A tag sent back is confirmed if it is that of the file now. -/
theorem confirmed_iff (now : Int) (hresolve : dir.resolve fs uriPath = some path)
    (hm : fs.metadata path = some m) (hfile : m.isFile = true) (htag : toStr tag = some tag) :
    Confirmed dir fs now uriPath tag ↔ tag = makeEtag now m := by
  have hsent : StaticDir.headerText [("if-none-match", tag)] "if-none-match" = some tag := htag
  have hno : StaticDir.headerText [("if-none-match", tag)] "range" = none := rfl
  unfold Confirmed StaticDir.handle
  simp only [hresolve, hm, hfile, Bool.true_eq_false, if_false, hsent, hno, Option.some.injEq]
  constructor
  · intro h
    by_contra hne
    rw [if_neg hne] at h
    obtain ⟨body, -, hresp⟩ := map_eq_ok.mp h
    exact absurd (congrArg Response.status hresp) (by simp [notModified])
  · intro he
    rw [if_pos he, he]

/-- The one tag that is served at the first time decides. -/
theorem revalidatesRight_iff_tags (hresolve : dir.resolve fs uriPath = some path)
    (h₁ : current history t₁ = some m₁) (h₂ : current history t₂ = some m₂)
    (hfile₁ : m₁.isFile = true) (hfile₂ : m₂.isFile = true) :
    RevalidatesRight dir fs uriPath path history t₁ t₂ m₁ m₂ ↔
      (Unmodified history t₁ t₂ → makeEtag t₁ m₁ = makeEtag t₂ m₂) ∧
      (Modified m₁ m₂ → makeEtag t₁ m₁ ≠ makeEtag t₂ m₂) := by
  have hfs₁ : (fileAt fs path history t₁).metadata path = some m₁ := (if_pos rfl).trans h₁
  have hfs₂ : (fileAt fs path history t₂).metadata path = some m₂ := (if_pos rfl).trans h₂
  have hresolve₁ : dir.resolve (fileAt fs path history t₁) uriPath = some path := hresolve
  have hresolve₂ : dir.resolve (fileAt fs path history t₂) uriPath = some path := hresolve
  have hconfirmed := confirmed_iff t₂ hresolve₂ hfs₂ hfile₂ (toStr_makeEtag t₁ m₁)
  constructor
  · intro h
    have hresp := (confirmed_iff t₁ hresolve₁ hfs₁ hfile₁ (toStr_makeEtag t₁ m₁)).mpr rfl
    obtain ⟨hkept, hchanged⟩ := h _ _ (makeEtag t₁ m₁) hresp rfl
    exact ⟨fun hu => (hkept hu).1, fun hm => (hchanged hm).1⟩
  · intro h headers resp tag hresp htag
    have he : tag = makeEtag t₁ m₁ :=
      Option.some.inj (htag.symm.trans (etag_of_handle hresolve₁ hfs₁ hfile₁ hresp))
    subst he
    exact ⟨fun hu => ⟨h.1 hu, hconfirmed.mpr (h.1 hu)⟩,
      fun hm => ⟨h.2 hm, fun hc => h.2 hm (hconfirmed.mp hc)⟩⟩

/-- **Revalidation.** A file's tags are confirmed when they should be, and only then,
exactly if the file is as old as before when it was not modified, and of another age or
length when it was. -/
theorem revalidation_iff (dir : StaticDir) (fs : FileSystem) (uriPath path : List Char)
    (hresolve : dir.resolve fs uriPath = some path) (history : List Version) (t₁ t₂ : Int)
    (hlt : t₁ < t₂) (m₁ m₂ : Metadata) (h₁ : current history t₁ = some m₁)
    (h₂ : current history t₂ = some m₂) (hfile₁ : m₁.isFile = true) (hfile₂ : m₂.isFile = true) :
    RevalidatesRight dir fs uriPath path history t₁ t₂ m₁ m₂ ↔
      (Unmodified history t₁ t₂ → age t₁ m₁ = age t₂ m₂) ∧
      (Modified m₁ m₂ → m₁.len ≠ m₂.len ∨ age t₁ m₁ ≠ age t₂ m₂) := by
  have hlen : Unmodified history t₁ t₂ → m₁.len = m₂.len := by
    intro hu
    rw [current_eq hu hlt.le, h₁] at h₂
    rw [Option.some.inj h₂]
  rw [revalidatesRight_iff_tags hresolve h₁ h₂ hfile₁ hfile₂]
  simp only [ne_eq, makeEtag_inj, not_and_or]
  exact and_congr_left fun _ => forall_congr' fun hu => and_iff_right (hlen hu)

/-- Nothing but regular files, whatever the path, that cannot be read. -/
def noContents : FileSystem := ⟨some, fun _ => none, fun _ => .error "", fun _ => .error ""⟩

def site : StaticDir := ⟨"/srv".toList⟩

def second : Int := 1000000000

/-- Asked again within a second. -/
theorem revalidation_iff_at_once :
    RevalidatesRight site noContents "/a.js".toList "/srv/a.js".toList [⟨0, ⟨true, 3, some 0⟩⟩]
      (second * 10) (second * 10 + 1) ⟨true, 3, some 0⟩ ⟨true, 3, some 0⟩ :=
  (revalidation_iff site noContents "/a.js".toList "/srv/a.js".toList (by decide +kernel)
    [⟨0, ⟨true, 3, some 0⟩⟩] (second * 10) (second * 10 + 1) (by decide) ⟨true, 3, some 0⟩
    ⟨true, 3, some 0⟩ (by decide) (by decide) rfl rfl).mpr
    ⟨fun _ => by decide, fun hm => by simp [Modified] at hm⟩

/-- A file that has not changed for fifteen seconds is sent again, and a copy of one that
has changed is confirmed. -/
theorem unchanged_resent_and_stale_confirmed :
    (∃ history : List Version, Unmodified history (second * 10) (second * 15) ∧
      ¬ RevalidatesRight site noContents "/a.js".toList "/srv/a.js".toList history
        (second * 10) (second * 15) ⟨true, 3, some 0⟩ ⟨true, 3, some 0⟩) ∧
    ∃ history : List Version,
      Modified ⟨true, 3, some 0⟩ ⟨true, 3, some (second * 20)⟩ ∧
      ¬ RevalidatesRight site noContents "/a.js".toList "/srv/a.js".toList history
        (second * 10) (second * 30) ⟨true, 3, some 0⟩ ⟨true, 3, some (second * 20)⟩ := by
  have hresolve : site.resolve noContents "/a.js".toList = some "/srv/a.js".toList := by
    decide +kernel
  constructor
  · have hu : Unmodified [⟨0, ⟨true, 3, some 0⟩⟩] (second * 10) (second * 15) := by
      simp [Unmodified, second]
    refine ⟨_, hu, fun h => ?_⟩
    have htags := (revalidatesRight_iff_tags hresolve (by decide) (by decide) rfl rfl).mp h
    exact absurd (makeEtag_inj.mp (htags.1 hu)).2 (by decide)
  · have hm : Modified ⟨true, 3, some 0⟩ ⟨true, 3, some (second * 20)⟩ := by
      simp [Modified, second]
    refine ⟨[⟨0, ⟨true, 3, some 0⟩⟩, ⟨second * 20, ⟨true, 3, some (second * 20)⟩⟩], hm, fun h => ?_⟩
    have htags := (revalidatesRight_iff_tags hresolve (by decide) (by decide) rfl rfl).mp h
    exact htags.2 hm (makeEtag_inj.mpr (by decide))

end JustApi.Core.StaticFiles
