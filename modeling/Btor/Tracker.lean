import Btor.AnnounceUrl
import Btor.Announced
import Btor.Request

/-!
# What the tracker receives

From the bytes of a torrent to the bytes of a request. An announce URL names a host, a port and a
path. The constructor of the HTTP client finds the host and the port if it gets the server part of
the URL and nothing else, and the library sends the query as it is. So the tracker receives the
announces of a process exactly if the path of its URL has no slash. If it has one, the requests go
to a host whose name is the server part together with the path up to its last slash, at port 80
(`client_received_iff`).
-/

namespace Btor

/-! ## The URL of a tracker -/

/-- An announce URL with a host and a port. -/
structure TrackerUrl where
  isSsl : Bool
  host : Bytes
  /-- The digits of the port, or none. -/
  port : Bytes
  path : Bytes
  host_ne_nil : host ≠ []
  isHostChar : ∀ c ∈ host, Httplib.isHostChar c = true ∧ c ≠ 0 ∧ c ≠ 32 ∧ c ≠ 13 ∧ c ≠ 10
  isDigit_port : ∀ c ∈ port, isDigit c = true
  port_lt : decimal port < 2^16
  zero_notMem : 0 ∉ path
  question_notMem : Ascii.question ∉ path

namespace TrackerUrl

variable (u : TrackerUrl)

/-- The scheme of the URL. -/
def scheme : Bytes := if u.isSsl then literal "https" else literal "http"

/-- The server part, with the scheme. -/
def server : Bytes :=
  u.scheme ++ literal "://" ++ u.host ++ if u.port = [] then [] else Ascii.colon :: u.port

/-- The URL as a string. -/
def url : Bytes := u.server ++ Ascii.slash :: u.path

/-- A client for the host and the port of the URL. -/
def client : Httplib.ClientImpl where
  isSsl := u.isSsl
  host := u.host
  port := if u.port = [] then if u.isSsl then 443 else 80 else Int32.ofNat (decimal u.port)

/-- A request goes to the host and the port of the URL. It is a GET request for its path, and the
tracker reads the fields out of the query. -/
def Receives (fields : List (Bytes × Bytes)) (cli : Httplib.ClientImpl) (request : Bytes) : Prop :=
  cli = u.client ∧ Requests request u.path fields

/-- A request goes to a host whose name is the URL up to the last slash of its path. -/
def Misdirected (cli : Httplib.ClientImpl) : Prop :=
  ∃ d r, u.path = d ++ Ascii.slash :: r ∧ Ascii.slash ∉ r ∧
    cli = { isSsl := false, host := u.server ++ Ascii.slash :: d, port := 80 }

/-- What the constructor of the client takes apart comes after the scheme. -/
theorem matchSchemeHostPort_scheme (rest : Bytes) :
    Httplib.matchSchemeHostPort (u.scheme ++ literal "://" ++ rest) =
      (Httplib.matchHostPort rest).map fun (host, port) => (u.scheme, host, port) := by
  have hlower : ∀ c ∈ u.scheme, Httplib.isLower c = true := by
    unfold scheme
    split_ifs
    · decide +kernel
    · decide +kernel
  have hne : u.scheme ≠ [] := by
    unfold scheme
    split_ifs
    · decide
    · decide
  have hstop : ((literal "://" ++ rest).takeWhile Httplib.isLower) = [] ∧
      (literal "://" ++ rest).dropWhile Httplib.isLower = literal "://" ++ rest := ⟨rfl, rfl⟩
  unfold Httplib.matchSchemeHostPort
  dsimp only
  -- The scheme is in lower case and the colon is not, so the scheme ends there.
  rw [List.append_assoc, List.takeWhile_append_of_pos hlower, List.dropWhile_append_of_pos hlower,
    hstop.1, hstop.2, List.append_nil, if_pos ⟨hne, List.prefix_append _ _⟩, List.drop_left]

/-- A host without a port is found. -/
theorem matchHostPort_host : Httplib.matchHostPort u.host = some (u.host, []) := by
  have hhost : ∀ c ∈ u.host, Httplib.isHostChar c = true := fun c hc => (u.isHostChar c hc).1
  unfold Httplib.matchHostPort
  dsimp only
  rw [List.takeWhile_eq_self_iff.mpr hhost, List.dropWhile_eq_nil_iff.mpr hhost,
    if_neg u.host_ne_nil]

/-- The host ends at the first character that it cannot have. -/
theorem matchHostPort_append {c : UInt8} (hc : Httplib.isHostChar c = false) (port : Bytes) :
    Httplib.matchHostPort (u.host ++ c :: port) =
      if c = Ascii.colon ∧ port ≠ [] ∧ ∀ d ∈ port, isDigit d = true then some (u.host, port)
      else none := by
  have hhost : ∀ c ∈ u.host, Httplib.isHostChar c = true := fun c hc => (u.isHostChar c hc).1
  have hc : ¬ Httplib.isHostChar c = true := by
    rw [hc]
    exact Bool.false_ne_true
  unfold Httplib.matchHostPort
  dsimp only
  rw [List.takeWhile_append_of_pos hhost, List.dropWhile_append_of_pos hhost,
    List.takeWhile_cons_of_neg hc, List.dropWhile_cons_of_neg hc, List.append_nil,
    if_neg u.host_ne_nil]

/-- The constructor of the client finds the host and the port of the server part. -/
theorem client_server : Httplib.client u.server = .ok u.client := by
  have hmatch : Httplib.matchSchemeHostPort u.server = some (u.scheme, u.host, u.port) := by
    unfold server
    rw [List.append_assoc, u.matchSchemeHostPort_scheme]
    split_ifs with hport
    · rw [List.append_nil, u.matchHostPort_host, hport]
      rfl
    · rw [u.matchHostPort_append (by decide), if_pos ⟨rfl, hport, u.isDigit_port⟩]
      rfl
  have hstoi : Httplib.stoi u.port = .ok (Int32.ofNat (decimal u.port)) := by
    have hlt := u.port_lt
    unfold Httplib.stoi
    rw [if_pos (by omega)]
    rfl
  -- The two schemes are the ones that are supported.
  have hsupported : ¬ (u.scheme ≠ [] ∧ u.scheme ≠ literal "http" ∧ u.scheme ≠ literal "https") := by
    unfold scheme
    split_ifs
    · exact fun h => h.2.2 rfl
    · exact fun h => h.2.1 rfl
  have hssl : decide (u.scheme = literal "https") = u.isSsl := by
    unfold scheme
    cases u.isSsl <;> rfl
  unfold Httplib.client client
  rw [hmatch]
  dsimp only
  rw [if_neg hsupported, hssl]
  by_cases hport : u.port = []
  · rw [if_neg (not_not.mpr hport), if_pos hport]
    rfl
  · rw [if_pos hport, if_neg hport, hstoi]
    rfl

/-- With a part of the path behind it, it takes the whole for a host. -/
theorem client_directory (directory : Bytes) :
    Httplib.client (u.server ++ Ascii.slash :: directory) =
      .ok { isSsl := false, host := u.server ++ Ascii.slash :: directory, port := 80 } := by
  have hmatch : Httplib.matchSchemeHostPort (u.server ++ Ascii.slash :: directory) = none := by
    unfold server
    rw [List.append_assoc, List.append_assoc, u.matchSchemeHostPort_scheme]
    split_ifs with hport
    · rw [List.nil_append, u.matchHostPort_append (by decide), if_neg (by simp)]
      rfl
    -- A slash among the digits of the port is no digit.
    · rw [List.cons_append, u.matchHostPort_append (by decide), if_neg]
      · rfl
      · rintro ⟨-, -, hdigits⟩
        have hdigit := hdigits Ascii.slash (List.mem_append_right _ List.mem_cons_self)
        exact absurd hdigit (by decide)
  unfold Httplib.client
  rw [hmatch]
  rfl

end TrackerUrl

/-! ## The split of the URL -/

/-- A string is cut at its last slash. -/
theorem split_append (platform : Platform) {l r : Bytes} (hr : Ascii.slash ∉ r)
    (hlen : (l ++ Ascii.slash :: r).length < 2^32) :
    getServerAddress platform (l ++ Ascii.slash :: r) = .ok l ∧
      getAnnouncePath platform (l ++ Ascii.slash :: r) = .ok r := by
  have hrange : (l ++ Ascii.slash :: r).length < platform.sizeRange := by
    cases platform <;> simp only [Platform.sizeRange] <;> omega
  have hl : l.length + 1 < 2^32 := by
    rw [List.length_append, List.length_cons] at hlen
    omega
  have hserver := getServerAddress_append hr hrange
  have hpath := getAnnouncePath_append hr hrange
  rw [Nat.mod_eq_of_lt (by omega), List.take_left] at hserver
  rw [Nat.mod_eq_of_lt hl, ← List.drop_drop, List.drop_left] at hpath
  exact ⟨hserver, hpath⟩

/-! ## What the tracker receives -/

namespace TrackerUrl

variable (u : TrackerUrl)

/-- The server part has no zero. -/
theorem zero_notMem_server : 0 ∉ u.server := by
  have hscheme : 0 ∉ u.scheme := by
    unfold scheme
    split_ifs
    · decide
    · decide
  have hseparator : 0 ∉ literal "://" := by decide
  have hhost : 0 ∉ u.host := fun h => (u.isHostChar 0 h).2.1 rfl
  have hport : 0 ∉ u.port := fun h => absurd (u.isDigit_port 0 h) (by decide)
  unfold server
  split_ifs
  · simp only [List.mem_append, not_or]
    exact ⟨⟨⟨hscheme, hseparator⟩, hhost⟩, List.not_mem_nil⟩
  · simp only [List.mem_append, List.mem_cons, not_or]
    exact ⟨⟨⟨hscheme, hseparator⟩, hhost⟩, by decide, hport⟩

/-- The client for the URL has the host of the URL. -/
theorem hasPlainHost_client : u.client.HasPlainHost := fun c hc => (u.isHostChar c hc).2.2

/-- The URL is longer than its host. -/
theorem server_append_ne_host (d : Bytes) : u.server ++ Ascii.slash :: d ≠ u.host := by
  intro h
  have hlength := congrArg List.length h
  unfold server at hlength
  simp only [List.length_append, List.length_cons] at hlength
  omega

/-- A request that is misdirected does not go to the host of the URL. -/
theorem Misdirected.ne {u : TrackerUrl} {cli : Httplib.ClientImpl} (h : u.Misdirected cli) :
    cli ≠ u.client := by
  rintro rfl
  obtain ⟨d, r, -, -, hcli⟩ := h
  exact u.server_append_ne_host d (congrArg Httplib.ClientImpl.host hcli).symm

section

variable {env : Environment} {files : Files} {u} (a : Announcer env files)
  (hannounce : a.file.announce = u.url) (hlen : u.url.length < 2^32)

include hannounce hlen

/-- A path without a slash is requested on the server. -/
theorem announcer_of_notMem (h : Ascii.slash ∉ u.path) :
    a.cli = u.client ∧ a.announcePath = u.path := by
  obtain ⟨hserver, hpath⟩ := split_append env.platform h hlen
  have hserver' := a.serverAddr_eq
  have hpath' := a.announcePath_eq
  rw [hannounce] at hserver' hpath'
  have haddress : a.serverAddr = u.server := Except.ok.inj (hserver'.symm.trans hserver)
  have hcli := a.cli_eq
  rw [haddress, cString_of_notMem u.zero_notMem_server, u.client_server] at hcli
  exact ⟨(Except.ok.inj hcli).symm, Except.ok.inj (hpath'.symm.trans hpath)⟩

/-- A path with a slash leaves a part of it with the server. -/
theorem announcer_of_mem (h : Ascii.slash ∈ u.path) : u.Misdirected a.cli := by
  obtain ⟨d, r, hd, hr⟩ := exists_append_last h
  have hurl : u.url = (u.server ++ Ascii.slash :: d) ++ Ascii.slash :: r := by
    rw [url, hd, List.append_assoc]
    rfl
  have hzero : 0 ∉ u.server ++ Ascii.slash :: d := by
    have hd' : 0 ∉ d := fun hc => u.zero_notMem (hd ▸ List.mem_append_left _ hc)
    simp only [List.mem_append, List.mem_cons, not_or]
    exact ⟨u.zero_notMem_server, by decide, hd'⟩
  -- The URL is cut at its last slash, which is in its path.
  rw [hurl] at hannounce hlen
  have hserver := a.serverAddr_eq
  rw [hannounce] at hserver
  have haddress := Except.ok.inj (hserver.symm.trans (split_append _ hr hlen).1)
  have hcli := a.cli_eq
  rw [haddress, cString_of_notMem hzero, u.client_directory] at hcli
  exact ⟨d, r, hd, hr, (Except.ok.inj hcli).symm⟩

end

/-- The tracker receives an announce of the torrent, with the info hash of its info value, the id of
the process, and the total of its lengths. -/
def ReceivesAnnounce (env : Environment) (t : Parsed) (slot : Slot) (cli : Httplib.ClientImpl)
    (request : Bytes) : Prop :=
  ∃ event left, (event = literal "started" ∨ event = literal "stopped") ∧
    readInteger left = some t.lengths.toInt ∧
    u.Receives (announceOf env slot left event) cli request

end TrackerUrl

/-- Every request of every process that reads a torrent with one info value and the URL of a tracker
is received by that tracker as an announce of the torrent exactly if the path of the URL has no
slash. If it has one, the request goes to another host, in whose name are the server and the path up
to its last slash. -/
theorem client_received_iff (env : Environment) (fuel : ℕ) {files : Files} {torrent : Bytes}
    (hfile : readFile files torrentFileName env.readFile = some torrent) {t : Parsed}
    (ht : StartsWith torrent t) {slot : Slot} (hslot : (t.slots 0).filter Slot.isInfo = [slot])
    (u : TrackerUrl) (hannounce : t.value.string? (literal "announce") = some u.url)
    (hlen : u.url.length < 2^32) :
    ∀ cli request, .get cli request ∈ ((client env fuel).run (.start files)).state.events →
      (u.ReceivesAnnounce env t slot cli request ↔ Ascii.slash ∉ u.path) ∧
      (Ascii.slash ∈ u.path → u.Misdirected cli ∧ cli ≠ u.client) := by
  intro cli request hmem
  obtain ⟨a, event, hevent, rfl, rfl⟩ := exists_announcer_of_get hmem
  obtain ⟨hparsed, hurl⟩ := a.eq_of_readFile hfile ht hannounce
  have hmisdirected (h : Ascii.slash ∈ u.path) := TrackerUrl.announcer_of_mem a hurl hlen h
  refine ⟨⟨?_, fun hslash => ?_⟩, fun hslash => ⟨hmisdirected hslash, (hmisdirected hslash).ne⟩⟩
  -- A request that is received goes to the host of the URL, and none does if there is a slash.
  · rintro ⟨_, _, -, -, hcli, -⟩ hslash
    exact (hmisdirected hslash).ne hcli
  · obtain ⟨hcli, hpath⟩ := TrackerUrl.announcer_of_notMem a hurl hlen hslash
    obtain ⟨left, hleft, hrequests⟩ := a.announces hparsed hslot (hcli ▸ u.hasPlainHost_client)
      (hpath ▸ u.zero_notMem) (hpath ▸ u.question_notMem) (isUnreserved_event hevent)
    exact ⟨event, left, hevent, hleft, hcli, hpath ▸ hrequests⟩

/-- The URL of that torrent. -/
def noLengthUrl : TrackerUrl where
  isSsl := false
  host := literal "t"
  port := []
  path := literal "a"
  host_ne_nil := by decide
  isHostChar := by decide +kernel
  isDigit_port _ h := absurd h List.not_mem_nil
  port_lt := by decide
  zero_notMem := by decide
  question_notMem := by decide

/-- The process that has one peer makes a request, and the tracker receives it. -/
theorem client_received_noLength : ∃ cli request,
    .get cli request ∈
      ((client onePeerEnvironment 300).run (.start noLengthFiles)).state.events ∧
    noLengthUrl.ReceivesAnnounce onePeerEnvironment noLength noLengthSlot cli request := by
  obtain ⟨cli, request, hmem⟩ := exists_get_noLength
  have hreceived := client_received_iff onePeerEnvironment 300 noLengthFiles_torrent
    noLength_startsWith noLength_slots noLengthUrl rfl (by decide) cli request hmem
  exact ⟨cli, request, hmem, hreceived.1.mpr (by decide)⟩

end Btor
