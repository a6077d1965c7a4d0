import Btor.Bhttp

/-!
# The split of the announce URL

The comments of `getServerAddress` and `getAnnouncePath` say that they return the server part and
the announce path part of the announce URL. Both cut at the last slash, and the parts meet at the
first one after the server. The two slashes are the same if the path has none, as in the example of
the comments (`announceUrl_split_iff`). A string without a slash makes both exit, unless the index
has 64 bits (`cutsOrExits_iff`).
-/

namespace Btor

/-- An announce URL and its parts. -/
structure AnnounceUrl where
  scheme : Bytes
  authority : Bytes
  path : Bytes
  authority_ne_nil : authority ≠ []
  slash_notMem : Ascii.slash ∉ authority
  question_notMem : Ascii.question ∉ path

namespace AnnounceUrl

variable (u : AnnounceUrl)

/-- The server part, with the scheme. -/
def server : Bytes := u.scheme ++ literal "://" ++ u.authority

/-- The URL as a string. -/
def url : Bytes := u.server ++ Ascii.slash :: u.path

/-- The path up to its last slash, with it. -/
def directory : Bytes := u.path.rdropWhile (· != Ascii.slash)

/-- Both functions return their part, and `main` requests the path on the server. -/
def Splits (platform : Platform) : Prop :=
  getServerAddress platform u.url = .ok u.server ∧ getAnnouncePath platform u.url = .ok u.path ∧
    ∀ metainfo uniqueId, metainfo.announce = u.url → startRequest platform metainfo uniqueId =
      .ok (u.server, literal "/" ++ u.path ++
        buildAnnounceParameters metainfo uniqueId (literal "started"))

end AnnounceUrl

/-! ## Cutting at the last slash -/

section

variable {platform : Platform} {l r : Bytes}

/-- The last index of a character. -/
theorem findLastOf_append {c : UInt8} (hr : c ∉ r) :
    findLastOf platform (l ++ c :: r) c = l.length := by
  have hrev : (l ++ c :: r).reverse = r.reverse ++ c :: l.reverse := by simp
  have hnone : r.reverse.findIdx? (· == c) = none := by
    rw [List.findIdx?_eq_none_iff]
    intro x hx
    simpa using fun h : x = c => hr (h ▸ List.mem_reverse.mp hx)
  have hsome : (l ++ c :: r).reverse.findIdx? (· == c) = some r.length := by
    rw [hrev, List.findIdx?_append, hnone]
    simp [List.findIdx?_cons]
  unfold findLastOf
  rw [hsome]
  simp

variable (hr : Ascii.slash ∉ r) (hlen : (l ++ Ascii.slash :: r).length < platform.sizeRange)

include hr hlen

/-- The index of the separator is kept modulo `2^32`. -/
theorem pathSeperatorIndex_append :
    pathSeperatorIndex platform (l ++ Ascii.slash :: r) = .ok (UInt32.ofNat l.length) := by
  have hnpos : (UInt32.ofNat l.length).toNat ≠ platform.npos := by
    unfold Platform.npos
    rw [UInt32.toNat_ofNat']
    rw [List.length_append, List.length_cons] at hlen
    cases platform <;> simp only [Platform.sizeRange] at hlen ⊢ <;> omega
  unfold pathSeperatorIndex
  rw [findLastOf_append hr, if_neg hnpos]
  rfl

/-- The server part is what is before the last slash. -/
theorem getServerAddress_append : getServerAddress platform (l ++ Ascii.slash :: r) =
    .ok ((l ++ Ascii.slash :: r).take (l.length % 2^32)) := by
  unfold getServerAddress
  rw [pathSeperatorIndex_append hr hlen]
  rfl

/-- The path part is what is behind it. -/
theorem getAnnouncePath_append : getAnnouncePath platform (l ++ Ascii.slash :: r) =
    .ok ((l ++ Ascii.slash :: r).drop ((l.length + 1) % 2^32)) := by
  have hindex : (UInt32.ofNat l.length + 1).toNat = (l.length + 1) % 2^32 := by
    simp [UInt32.toNat_add]
  have hle : (l.length + 1) % 2^32 ≤ (l ++ Ascii.slash :: r).length := by
    rw [List.length_append, List.length_cons]
    omega
  unfold getAnnouncePath
  rw [pathSeperatorIndex_append hr hlen]
  simp only [Except.bind, bind, hindex, substr, if_pos hle]
  rw [List.take_of_length_le]
  · rfl
  · unfold Platform.npos
    rw [List.length_drop]
    omega

end

/-! ## The two slashes -/

namespace AnnounceUrl

variable (u : AnnounceUrl)

/-- The last slash of the URL is at the end of the directory, or before the path if that has no
slash. -/
theorem url_eq_append : ∃ l r, u.url = l ++ Ascii.slash :: r ∧ Ascii.slash ∉ r ∧
    l.length = u.server.length + u.directory.length := by
  have hpath : u.directory ++ u.path.rtakeWhile (· != Ascii.slash) = u.path :=
    List.rdropWhile_append_rtakeWhile
  have hfile : Ascii.slash ∉ u.path.rtakeWhile (· != Ascii.slash) := by
    intro h
    exact absurd (List.mem_rtakeWhile_imp h) (by decide)
  -- Where the path has no slash, the last one is that behind the server.
  by_cases hdir : u.directory = []
  · rw [hdir, List.nil_append] at hpath
    refine ⟨u.server, u.path, rfl, hpath ▸ hfile, ?_⟩
    rw [hdir]
    rfl
  · -- The directory ends in the last slash.
    have hlast : u.directory.getLast hdir = Ascii.slash := by
      simpa [directory] using List.rdropWhile_last_not (· != Ascii.slash) u.path hdir
    refine ⟨u.server ++ Ascii.slash :: u.directory.dropLast,
      u.path.rtakeWhile (· != Ascii.slash), ?_, hfile, ?_⟩
    · calc u.url = u.server ++ Ascii.slash :: (u.directory ++
            u.path.rtakeWhile (· != Ascii.slash)) := by rw [hpath, url]
        _ = u.server ++ Ascii.slash :: (u.directory.dropLast ++ [Ascii.slash] ++
            u.path.rtakeWhile (· != Ascii.slash)) := by
          rw [← hlast, List.dropLast_append_getLast]
        _ = _ := by simp
    · have hpos := List.length_pos_of_ne_nil hdir
      rw [List.length_append, List.length_cons, List.length_dropLast]
      omega

/-- The URL has its server part, a slash and its path. -/
theorem length_url : u.url.length = u.server.length + 1 + u.path.length := by
  unfold url
  rw [List.length_append, List.length_cons]
  omega

/-- The directory is a part of the path. -/
theorem length_directory_le : u.directory.length ≤ u.path.length :=
  (List.rdropWhile_prefix _ _).length_le

/-- The server part is what comes before the first slash after it. -/
theorem take_url_iff {n : ℕ} (hn : n < u.url.length) :
    u.url.take n = u.server ↔ n = u.server.length := by
  constructor
  · intro h
    rw [← h, List.length_take]
    omega
  · rintro rfl
    exact List.take_left

/-- The path is what comes after that slash. -/
theorem drop_url_iff {n : ℕ} (hn : n ≤ u.url.length) :
    u.url.drop n = u.path ↔ n = u.server.length + 1 := by
  have hlen := u.length_url
  constructor
  · intro h
    have hdrop := congrArg List.length h
    rw [List.length_drop] at hdrop
    omega
  · rintro rfl
    unfold url
    rw [← List.drop_drop, List.drop_left]
    rfl

end AnnounceUrl

/-- Both parts are returned exactly if the directory of the path has a multiple of `2^32` bytes,
none as a rule, and the server part is short enough for an index of 32 bits. -/
theorem announceUrl_split_iff (platform : Platform) (u : AnnounceUrl)
    (hlen : u.url.length < platform.sizeRange) :
    u.Splits platform ↔ u.server.length + 1 < 2^32 ∧ 2^32 ∣ u.directory.length := by
  obtain ⟨l, r, hurl, hr, hl⟩ := u.url_eq_append
  have hserver : getServerAddress platform u.url = .ok (u.url.take (l.length % 2^32)) := by
    rw [hurl] at hlen ⊢
    exact getServerAddress_append hr hlen
  have hpath : getAnnouncePath platform u.url = .ok (u.url.drop ((l.length + 1) % 2^32)) := by
    rw [hurl] at hlen ⊢
    exact getAnnouncePath_append hr hlen
  have hle := u.length_directory_le
  have hlength := u.length_url
  -- Both indices are taken modulo 2^32, and both have to be those behind the server.
  have hparts : getServerAddress platform u.url = .ok u.server ∧
      getAnnouncePath platform u.url = .ok u.path ↔
        l.length % 2^32 = u.server.length ∧ (l.length + 1) % 2^32 = u.server.length + 1 := by
    rw [hserver, hpath, Except.ok.injEq, Except.ok.injEq, u.take_url_iff (by omega),
      u.drop_url_iff (by omega)]
  unfold AnnounceUrl.Splits
  constructor
  · rintro ⟨h, h', -⟩
    obtain ⟨hcut, hcut'⟩ := hparts.mp ⟨h, h'⟩
    constructor <;> omega
  · rintro ⟨hshort, hdir⟩
    obtain ⟨h, h'⟩ := hparts.mpr ⟨by omega, by omega⟩
    refine ⟨h, h', fun metainfo uniqueId hannounce => ?_⟩
    unfold startRequest
    rw [hannounce, h, h']
    rfl

/-- The URL of the comments. -/
def ubuntuUrl : AnnounceUrl where
  scheme := literal "https"
  authority := literal "torrent.ubuntu.com"
  path := literal "announce"
  authority_ne_nil := by decide
  slash_notMem := by decide
  question_notMem := by decide

/-- The URL of an Ubuntu torrent is split where it is meant to be. -/
theorem announceUrl_split_ubuntu : ubuntuUrl.Splits .x64 :=
  (announceUrl_split_iff .x64 ubuntuUrl (by decide)).mpr ⟨by decide, by decide⟩

/-- The URL of a tracker with a passkey. -/
def passkeyUrl : AnnounceUrl where
  scheme := literal "http"
  authority := literal "a"
  path := literal "b/announce"
  authority_ne_nil := by decide
  slash_notMem := by decide
  question_notMem := by decide

/-- The passkey of `http://a/b/announce` goes to the server part. -/
theorem not_announceUrl_split : ¬ ∀ (platform : Platform) (u : AnnounceUrl),
    u.url.length < platform.sizeRange → u.Splits platform := by
  intro h
  have hserver := (h .x64 passkeyUrl (by decide)).1
  exact absurd hserver (by decide +kernel)

/-! ## URLs without a separator -/

/-- The two functions cut the string at its last slash, or both exit if it has none. -/
def CutsOrExits (platform : Platform) (announceUrl : Bytes) : Prop :=
  if Ascii.slash ∈ announceUrl then
    ∃ server path, getServerAddress platform announceUrl = .ok server ∧
      getAnnouncePath platform announceUrl = .ok path ∧
      server ++ Ascii.slash :: path = announceUrl ∧ Ascii.slash ∉ path
  else
    getServerAddress platform announceUrl = .error .exit ∧
      getAnnouncePath platform announceUrl = .error .exit

section

variable {platform : Platform} {u : Bytes}

/-- A string with a character is cut at the last one. -/
theorem exists_append_last {c : UInt8} (h : c ∈ u) : ∃ l r, u = l ++ c :: r ∧ c ∉ r := by
  obtain ⟨r, l, hrev, hr⟩ := List.eq_append_cons_of_mem (List.mem_reverse.mpr h)
  refine ⟨l.reverse, r.reverse, ?_, fun hmem => hr (List.mem_reverse.mp hmem)⟩
  rw [← List.reverse_reverse u, hrev]
  simp

/-- At a slash below `2^32` the parts are what is before and after it. -/
theorem cutsOrExits_of_mem (hmem : Ascii.slash ∈ u) (hlen : u.length < 2^32) :
    CutsOrExits platform u := by
  obtain ⟨l, r, rfl, hr⟩ := exists_append_last hmem
  have hrange : (l ++ Ascii.slash :: r).length < platform.sizeRange := by
    cases platform <;> simp only [Platform.sizeRange] <;> omega
  have hl : l.length + 1 < 2^32 := by
    rw [List.length_append, List.length_cons] at hlen
    omega
  have hserver := getServerAddress_append hr hrange
  have hpath := getAnnouncePath_append hr hrange
  rw [Nat.mod_eq_of_lt (by omega), List.take_left] at hserver
  rw [Nat.mod_eq_of_lt hl, ← List.drop_drop, List.drop_left] at hpath
  unfold CutsOrExits
  rw [if_pos hmem]
  exact ⟨l, r, hserver, hpath, rfl, hr⟩

/-- Without a slash the search finds none. -/
theorem findLastOf_of_notMem (h : Ascii.slash ∉ u) :
    findLastOf platform u Ascii.slash = platform.npos := by
  have hnone : u.reverse.findIdx? (· == Ascii.slash) = none := by
    rw [List.findIdx?_eq_none_iff]
    intro x hx
    simpa using fun heq : x = Ascii.slash => h (heq ▸ List.mem_reverse.mp hx)
  unfold findLastOf
  rw [hnone]

/-- An `unsigned int` holds the `npos` of 32 bits. -/
theorem pathSeperatorIndex_win32 (h : Ascii.slash ∉ u) :
    pathSeperatorIndex .win32 u = .error .exit := by
  unfold pathSeperatorIndex
  rw [findLastOf_of_notMem h]
  rfl

/-- The `npos` of 64 bits becomes that of 32 bits. -/
theorem pathSeperatorIndex_x64 (h : Ascii.slash ∉ u) :
    pathSeperatorIndex .x64 u = .ok (2^32 - 1) := by
  unfold pathSeperatorIndex
  rw [findLastOf_of_notMem h]
  rfl

/-- The server part is the whole string then, and no error is noticed. -/
theorem getServerAddress_x64 (h : Ascii.slash ∉ u) (hlen : u.length < 2^32) :
    getServerAddress .x64 u = .ok u := by
  have hindex : ((2^32 - 1 : UInt32)).toNat = 2^32 - 1 := rfl
  unfold getServerAddress
  rw [pathSeperatorIndex_x64 h]
  simp only [Except.bind, bind, substr, hindex, Nat.zero_le, if_true, List.drop_zero]
  rw [List.take_of_length_le (by omega)]
  rfl

end

/-- Both functions cut at the last slash or exit, for strings that an index of 32 bits reaches,
unless there is no slash and an index has 64 bits. -/
theorem cutsOrExits_iff (platform : Platform) (announceUrl : Bytes)
    (hlen : announceUrl.length < 2^32) :
    CutsOrExits platform announceUrl ↔ Ascii.slash ∈ announceUrl ∨ platform = .win32 := by
  constructor
  · intro h
    by_contra hnot
    obtain ⟨hslash, hplatform⟩ := not_or.mp hnot
    -- Without a slash the index is `npos`, which is found to be none on one of the platforms only.
    have hx64 : platform = .x64 := by
      cases platform
      · exact absurd rfl hplatform
      · rfl
    subst hx64
    unfold CutsOrExits at h
    rw [if_neg hslash, getServerAddress_x64 hslash hlen] at h
    cases h.1
  · rintro (hslash | rfl)
    · exact cutsOrExits_of_mem hslash hlen
    · by_cases hslash : Ascii.slash ∈ announceUrl
      · exact cutsOrExits_of_mem hslash hlen
      · unfold CutsOrExits getServerAddress getAnnouncePath
        rw [if_neg hslash, pathSeperatorIndex_win32 hslash]
        exact ⟨rfl, rfl⟩

/-- A string without a slash on Win32. -/
theorem cutsOrExits_win32 : CutsOrExits .win32 (literal "announce") :=
  (cutsOrExits_iff .win32 (literal "announce") (by decide)).mpr (.inr rfl)

/-- On x64 the whole string is the server part. -/
theorem not_cutsOrExits : ¬ ∀ (platform : Platform) (announceUrl : Bytes),
    announceUrl.length < 2^32 → CutsOrExits platform announceUrl := by
  intro hclaim
  have h := hclaim .x64 (literal "announce") (by decide)
  unfold CutsOrExits at h
  rw [if_neg (by decide), getServerAddress_x64 (by decide) (by decide)] at h
  cases h.1

end Btor
