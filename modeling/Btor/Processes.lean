import Btor.Client
import Btor.Inputs
import Btor.StartUp

/-!
# One process after the other

Each process reads the bitfield from its file, or makes the file first, and writes it back before it
ends. `main` sets no bit in between. So over any number of processes, with whatever environments,
and however each of them ends by itself, the file has what it had, or as many zeros as the torrent
says if it was made, and is never removed; and the torrent and all other files are never changed.
Of the bytes some may be lost at the end, where a stream fails, and none where all streams of the
bitfield work (`processes_keepBitfield`).
-/

namespace Btor

open Lib (Run)
open Lib.Run (Post Keeps)

/-! ## The size of the bitfield of a torrent -/

/-- The size of the bitfield as it follows from the total of the lengths in the torrent and the
piece length in its info dictionary. -/
def HasBitfieldSize (torrent : Bytes) (size : UInt64) : Prop :=
  ∃ (t : Parsed) (info : Value) (n : ℤ), StartsWith torrent t ∧ t.value.get? infoKey = some info ∧
    info.int? (literal "piece length") = some n ∧
    getBitfieldSize { totalLength := t.lengths, pieceLength := (Int64.ofInt n).toUInt64 } = .ok size

/-- The size depends on the lengths only. -/
theorem getBitfieldSize_congr {metainfo metainfo' : Metainfo}
    (htotal : metainfo.totalLength = metainfo'.totalLength)
    (hpiece : metainfo.pieceLength = metainfo'.pieceLength) :
    getBitfieldSize metainfo = getBitfieldSize metainfo' := by
  unfold getBitfieldSize
  rw [htotal, hpiece]

/-- What is rounded up fits twice. -/
theorem toNat_le_of_ceil {x y : UInt64} (h : ceil x = .ok y) : y.toNat ≤ 2 * x.toNat := by
  by_cases hfits : x.toNat < 2^64 - 2^10
  · obtain ⟨y', hy', hvalue⟩ := ceil_of_fits hfits
    obtain rfl := Except.ok.inj (hy'.symm.trans h)
    rw [hvalue]
    rcases Nat.eq_zero_or_pos x.toNat with hzero | hpos
    · rw [hzero]
      decide
    · exact (toDouble_bounds hpos.ne').2
  · rw [ceil_of_not_fits hfits] at h
    cases h

/-- A bitfield has fewer than `2^63` bytes, so the offset of its last byte is not negative. -/
theorem getBitfieldSize_le {metainfo : Metainfo} {size : UInt64}
    (h : getBitfieldSize metainfo = .ok size) : size.toNat ≤ 2^63 := by
  unfold getBitfieldSize at h
  split_ifs at h
  · cases h
  · cases hpieces : ceil (metainfo.totalLength.toUInt64 / metainfo.pieceLength) with
    | error u =>
      rw [hpieces] at h
      cases h
    | ok numberOfPieces =>
      rw [hpieces] at h
      have hsize := toNat_le_of_ceil (x := numberOfPieces / 8) h
      have hdiv : (numberOfPieces / 8).toNat = numberOfPieces.toNat / 8 := UInt64.toNat_div ..
      have hlt := numberOfPieces.toNat_lt
      omega

/-- The metainfo that is read of a torrent has the size of its bitfield. -/
theorem Torrent.hasBitfieldSize {torrent : Bytes} (file : Torrent torrent)
    {final : Bytes → Vector UInt32 5} {memory : ℕ → UInt8} {size : UInt64}
    (h : getBitfieldSize (file.metainfo final memory) = .ok size) : HasBitfieldSize torrent size :=
  ⟨file.parsed, file.info, file.pieceLength, file.startsWith, file.info_eq, file.pieceLength_eq,
    h ▸ getBitfieldSize_congr rfl rfl⟩

/-! ## What becomes of the files -/

/-- What may have become of the files. The bitfield is there if it was, with what it had, and has
been made with as many zeros as a torrent says if it was not, but for what `r` allows to be lost. No
other file has changed. -/
structure BecomesBitfield (r : Bytes → Bytes → Prop) (reads : Bytes → Prop)
    (before after : Files) : Prop where
  others : ∀ name, name ≠ bitfieldFileName → after name = before name
  bitfield : ∀ content, before bitfieldFileName = some content →
    ∃ content', after bitfieldFileName = some content' ∧ r content' content
  made : ∀ content, before bitfieldFileName = none → after bitfieldFileName = some content →
    ∃ torrent size, reads torrent ∧ HasBitfieldSize torrent size ∧
      r content (List.replicate size.toNat 0)

/-- The torrent is not the bitfield. -/
theorem torrentFileName_ne : torrentFileName ≠ bitfieldFileName := by decide +kernel

/-- The files become what they are. -/
theorem BecomesBitfield.refl {r : Bytes → Bytes → Prop} (hrefl : ∀ content, r content content)
    (reads : Bytes → Prop) (files : Files) : BecomesBitfield r reads files files where
  others _ _ := rfl
  bitfield content h := ⟨content, h, hrefl content⟩
  made _ hnone hsome := by
    rw [hnone] at hsome
    cases hsome

section

variable {r : Bytes → Bytes → Prop} {reads reads' : Bytes → Prop} {files files' files'' : Files}

/-- What one process leaves, the next one finds. -/
theorem BecomesBitfield.trans (htrans : ∀ a b c, r a b → r b c → r a c)
    (h : BecomesBitfield r reads files files') (h' : BecomesBitfield r reads' files' files'') :
    BecomesBitfield r (fun torrent => reads torrent ∨ reads' torrent) files files'' where
  others name hname := (h'.others name hname).trans (h.others name hname)
  bitfield content hcontent := by
    obtain ⟨content', hcontent', hr⟩ := h.bitfield content hcontent
    obtain ⟨content'', hcontent'', hr'⟩ := h'.bitfield content' hcontent'
    exact ⟨content'', hcontent'', htrans _ _ _ hr' hr⟩
  made content hnone hsome := by
    cases hmid : files' bitfieldFileName with
    -- Where the first process makes no file, the file is that of the second.
    | none =>
      obtain ⟨torrent, size, hreads, hsize⟩ := h'.made content hmid hsome
      exact ⟨torrent, size, .inr hreads, hsize⟩
    | some content' =>
      obtain ⟨torrent, size, hreads, hsize, hr⟩ := h.made content' hnone hmid
      obtain ⟨content'', hcontent'', hr'⟩ := h'.bitfield content' hmid
      obtain rfl := Option.some.inj (hsome.symm.trans hcontent'')
      exact ⟨torrent, size, .inl hreads, hsize, htrans _ _ _ hr' hr⟩

/-- A torrent that one reads may be read by more. -/
theorem BecomesBitfield.mono (h : BecomesBitfield r reads files files')
    (hreads : ∀ torrent, reads torrent → reads' torrent) :
    BecomesBitfield r reads' files files' where
  others := h.others
  bitfield := h.bitfield
  made content hnone hsome := by
    obtain ⟨torrent, size, htorrent, hsize⟩ := h.made content hnone hsome
    exact ⟨torrent, size, hreads torrent htorrent, hsize⟩

end

/-! ## What goes through of the streams -/

/-- What goes through of a stream is in this relation to the whole. -/
def Transfer.Passes (r : Bytes → Bytes → Prop) (t : Transfer) : Prop :=
  ∀ content, r ((t.pass content).getD []) content

/-- Any stream loses bytes at the end only. -/
theorem Transfer.passes_prefix (t : Transfer) : t.Passes (· <+: ·) := by
  intro content
  cases t with
  | refused => exact List.nil_prefix
  | cut n => exact List.take_prefix n content
  | whole => exact List.prefix_rfl

/-- A stream that works loses nothing. -/
theorem Transfer.passes_eq {t : Transfer} (h : t = .whole) : t.Passes (· = ·) := by
  subst h
  exact fun _ => rfl

/-- Where nothing of a zero goes through, nothing may be left of any content. -/
theorem Transfer.Passes.nil {r : Bytes → Bytes → Prop} {t : Transfer} (h : t.Passes r)
    (hzero : (t.pass [0]).getD [] = []) (content : Bytes) : r [] content := by
  have hcontent := h content
  cases t with
  | refused => exact hcontent
  | cut n =>
    cases n with
    | zero => exact hcontent
    | succ n => cases hzero
  | whole => cases hzero

/-- What may be lost, in each of the streams of the bitfield and over all processes. -/
structure Loses (r : Bytes → Bytes → Prop) (env : Environment) : Prop where
  refl : ∀ content, r content content
  trans : ∀ a b c, r a b → r b c → r a c
  made : env.createEmptyFile.Passes r
  read : env.readBitfield.Passes r
  written : env.writeBitfield.Passes r

/-- The bitfield that a process is to find, or to make of a torrent. -/
def IsBitfieldOf (files : Files) (metainfo : Metainfo) (content : Bytes) : Prop :=
  files bitfieldFileName = some content ∨ files bitfieldFileName = none ∧
    ∃ size, getBitfieldSize metainfo = .ok size ∧ content = List.replicate size.toNat 0

/-- The bitfield in the files is this one but for what is lost, and nothing else has changed. -/
structure HoldsBitfield (r : Bytes → Bytes → Prop) (content : Bytes) (before after : Files) :
    Prop where
  others : ∀ name, name ≠ bitfieldFileName → after name = before name
  stays : before bitfieldFileName ≠ none → after bitfieldFileName ≠ none
  bitfield : r ((after bitfieldFileName).getD []) content

/-- A process that holds its bitfield makes of the files what it may. -/
theorem HoldsBitfield.becomes {r : Bytes → Bytes → Prop} {reads : Bytes → Prop}
    {content torrent : Bytes} {before after : Files} (h : HoldsBitfield r content before after)
    (file : Torrent torrent) {final : Bytes → Vector UInt32 5} {memory : ℕ → UInt8}
    (hreads : reads torrent) (hcontent : IsBitfieldOf before (file.metainfo final memory) content) :
    BecomesBitfield r reads before after where
  others := h.others
  bitfield content' hcontent' := by
    rcases hcontent with hcontent | ⟨hnone, -⟩
    · obtain rfl := Option.some.inj (hcontent.symm.trans hcontent')
      obtain ⟨content'', hafter⟩ := Option.ne_none_iff_exists'.mp
        (h.stays (hcontent ▸ Option.some_ne_none _))
      have hbitfield := h.bitfield
      rw [hafter] at hbitfield
      exact ⟨content'', hafter, hbitfield⟩
    · rw [hnone] at hcontent'
      cases hcontent'
  made content' hnone hsome := by
    rcases hcontent with hcontent | ⟨-, size, hsize, rfl⟩
    · rw [hnone] at hcontent
      cases hcontent
    · have hbitfield := h.bitfield
      rw [hsome] at hbitfield
      exact ⟨torrent, size, hreads, file.hasBitfieldSize hsize, hbitfield⟩

section

variable {r : Bytes → Bytes → Prop} {env : Environment} {files : Files} (hr : Loses r env)

include hr

/-- The file that is made holds its zeros. -/
theorem Loses.holds_createFile (hnone : files bitfieldFileName = none) {size : UInt64}
    (hsize : size.toNat ≤ 2^63) :
    HoldsBitfield r (List.replicate size.toNat 0) files
      (createFile files bitfieldFileName size env.createEmptyFile) := by
  -- If the file is not opened, there is none, which is as good as an empty one.
  cases hpass : env.createEmptyFile.pass [0] with
  | none =>
    have hcreate : createFile files bitfieldFileName size env.createEmptyFile = files := by
      unfold createFile
      rw [hpass]
    have hnil := hr.made.nil (by rw [hpass]; rfl) (List.replicate size.toNat 0)
    rw [hcreate]
    exact ⟨fun _ _ => rfl, fun h => h, by rwa [hnone]⟩
  | some written =>
    rw [createFile_of_some hsize hpass]
    refine ⟨fun name hname => Function.update_of_ne hname _ _, fun _ => ?_, ?_⟩
    · rw [Function.update_self]
      exact Option.some_ne_none _
    · rw [Function.update_self, Option.getD_some]
      split_ifs with hwritten
      · exact hr.made.nil (by rw [hpass, hwritten]; rfl) _
      · exact hr.refl _

/-- The bitfield that is written is held. -/
theorem Loses.holds_writeBitfield {before : Files} {content bitfield : Bytes}
    (hholds : HoldsBitfield r content before files) (hbitfield : r bitfield content) :
    HoldsBitfield r content before
      (writeBitfield files bitfieldFileName bitfield env.writeBitfield) := by
  cases hpass : env.writeBitfield.pass bitfield with
  | none =>
    rw [writeBitfield_of_none hpass]
    exact hholds
  | some written =>
    have hwritten := hr.written bitfield
    rw [hpass] at hwritten
    rw [writeBitfield_of_some hpass]
    refine ⟨fun name hname => ?_, fun _ => ?_, ?_⟩
    · rw [Function.update_of_ne hname]
      exact hholds.others name hname
    · rw [Function.update_self]
      exact Option.some_ne_none _
    · rw [Function.update_self]
      exact hr.trans _ _ _ hwritten hbitfield

/-- The bitfield that is loaded is held, and so is the one of the process. -/
theorem Loses.post_loadBitfield (metainfo : Metainfo) {m : Machine} :
    (loadBitfield env metainfo).Post m
    (fun bitfield m' => ∃ content, IsBitfieldOf m.files metainfo content ∧
      HoldsBitfield r content m.files m'.files ∧ r bitfield content)
    fun m' => m'.files = m.files := by
  have hfiles : Client.files.run m = .returned m.files m := rfl
  unfold loadBitfield Post
  rw [Run.run_bind_of_returned hfiles]
  cases hbitfield : m.files bitfieldFileName with
  -- The file is there, and is read.
  | some content =>
    have hread := hr.read content
    have hexists : doesBitfieldFileExist m.files bitfieldFileName = true := by
      unfold doesBitfieldFileExist
      rw [hbitfield]
      rfl
    rw [if_pos hexists]
    refine ⟨content, .inl hbitfield, ⟨fun _ _ => rfl, fun h => h, ?_⟩, ?_⟩
    · rw [hbitfield]
      exact hr.refl content
    · unfold readBitfield
      rw [hbitfield]
      exact hread
  -- It is made, and read again.
  | none =>
    have hexists : ¬ doesBitfieldFileExist m.files bitfieldFileName = true := by
      unfold doesBitfieldFileExist
      rw [hbitfield]
      exact Bool.false_ne_true
    rw [if_neg hexists]
    cases hcompute : getBitfieldSize metainfo with
    | error u => rfl
    | ok size =>
      have hholds := hr.holds_createFile hbitfield (getBitfieldSize_le hcompute)
      exact ⟨_, .inr ⟨hbitfield, size, hcompute, rfl⟩, hholds,
        hr.trans _ _ _ (hr.read _) hholds.bitfield⟩

end

/-! ## One process -/

section

variable {α : Type} {env : Environment} (state : BState)
  (serverAddr announcePath bitfield : Bytes) (m : Machine)

/-- A part of `main` that runs on the parser writes no file. -/
theorem keepsFiles_world (x : Main α) : Keeps Machine.files (Client.world x) := by
  intro m
  unfold Client.world
  dsimp only
  cases x.run { state := m.state, calls := m.calls } <;> rfl

/-- Neither do the objects that are erased. -/
theorem keepsFiles_erasePeers (peers : List Ptr) : Keeps Machine.files (erasePeers peers) := by
  induction peers with
  | nil => exact Run.keeps_pure ()
  | cons p peers ih =>
    have hemit : Keeps Machine.files (Client.emit (.delete p)) := fun _ => rfl
    exact hemit.bind fun _ => ih

/-- A request writes no file. -/
theorem keepsFiles_makeGetRequest (address path : Bytes) :
    Keeps Machine.files (makeGetRequest env address path) :=
  keeps_makeGetRequest (fun _ _ _ => rfl) address path

/-- From the response on, the bitfield is written at the end, or no file is. -/
theorem post_meetPeers_files (fuel : ℕ) (response : Bytes) :
    (meetPeers env fuel state serverAddr announcePath bitfield response).Post m
      (fun _ m' => m'.files = writeBitfield m.files bitfieldFileName bitfield env.writeBitfield)
      fun m' => m'.files = m.files := by
  unfold meetPeers finish
  refine (keepsFiles_world _).bind_post rfl (fun _ h => h) fun peers m₁ h => ?_
  refine (keepsFiles_world _).bind_post h (fun _ h => h) fun bpeers m₂ h => ?_
  refine (Client.keeps_assert _).bind_post h (fun _ h => h) fun _ m₃ h => ?_
  refine (keepsFiles_world _).bind_post h (fun _ h => h) fun _ m₄ h => ?_
  refine (keepsFiles_erasePeers peers).bind_post h (fun _ h => h) fun _ m₅ h => ?_
  refine (keepsFiles_makeGetRequest _ _).bind_post h (fun _ h => h) fun _ m₆ h => ?_
  exact congrArg (writeBitfield · bitfieldFileName bitfield env.writeBitfield) h

end

/-- A process starts with a fresh parser, and leaves its files. -/
def process (files : Files) (run : Environment × ℕ) : Files :=
  ((client run.1 run.2).run (.start files)).state.files

/-- A process reads this torrent. -/
def FindsTorrent (env : Environment) (files : Files) (torrent : Bytes) : Prop :=
  readFile files torrentFileName env.readFile = some torrent

/-- A process writes back what it has read. -/
theorem becomesBitfield_process {r : Bytes → Bytes → Prop} (files : Files) (run : Environment × ℕ)
    (hr : Loses r run.1) :
    BecomesBitfield r (FindsTorrent run.1 files) files (process files run) := by
  obtain ⟨env, fuel⟩ := run
  dsimp only at hr ⊢
  have hrefl := BecomesBitfield.refl hr.refl (FindsTorrent env files) files
  have hpost : (client env fuel).Post (.start files)
      (fun _ m' => BecomesBitfield r (FindsTorrent env files) files m'.files)
      fun m' => BecomesBitfield r (FindsTorrent env files) files m'.files := by
    unfold client
    split_ifs
    · exact Run.post_stop hrefl
    · exact Run.post_stop hrefl
    refine ((post_loadTorrent env _).mono (fun _ _ h => h) fun m' hm' => ?_).bind
      fun torrent m₁ hm₁ => ?_
    -- A process that reads no torrent leaves the files alone.
    · exact hm' ▸ hrefl
    obtain ⟨rfl, htorrent⟩ := hm₁
    have hread := post_world (m := .start files)
      (post_readTorrent checksum env.hashMemory rfl torrent fuel)
    refine (((keepsFiles_world _).post _).and hread |>.mono (fun _ _ h => h) fun m' hm' => ?_).bind
      fun metainfo m₂ hm₂ => ?_
    · exact hm'.1 ▸ hrefl
    obtain ⟨hfiles, w, -, file, rfl⟩ := hm₂
    refine ((hr.post_loadBitfield _).mono (fun _ _ h => h) fun m' hm' => ?_).bind
      fun bitfield m₃ hm₃ => ?_
    · exact (hm'.trans hfiles) ▸ hrefl
    obtain ⟨content, hcontent, hholds, hbitfield⟩ := hm₃
    rw [hfiles] at hcontent hholds
    -- Until the end the files stay as they are.
    have hE (m' : Machine) (hm' : m'.files = m₃.files) :
        BecomesBitfield r (FindsTorrent env files) files m'.files :=
      hm' ▸ hholds.becomes file htorrent hcontent
    refine (Client.keeps_orStop _ _).bind_post rfl hE fun serverAddr m₄ h => ?_
    refine (Client.keeps_orStop _ _).bind_post h hE fun announcePath m₅ h => ?_
    refine (keepsFiles_makeGetRequest _ _).bind_post h hE fun response m₆ h => ?_
    refine (post_meetPeers_files _ serverAddr announcePath bitfield m₆ fuel response).mono
      (fun _ m' hm' => ?_) fun m' hm' => hE m' (hm'.trans h)
    -- What is written at the end is what was loaded, but for what is lost.
    rw [hm', h]
    exact (hr.holds_writeBitfield hholds hbitfield).becomes file htorrent hcontent
  exact hpost.state (fun _ _ hm' => hm') fun _ hm' => hm'

/-! ## All processes -/

/-- One of the processes reads this torrent. -/
def ReadsTorrent (files : Files) (runs : List (Environment × ℕ)) (torrent : Bytes) : Prop :=
  ∃ run ∈ runs, FindsTorrent run.1 files torrent

/-- Over all processes that follow one another, the bitfield is made once and kept, but for what is
lost. -/
theorem becomesBitfield_foldl {r : Bytes → Bytes → Prop} (hrefl : ∀ content, r content content)
    (htrans : ∀ a b c, r a b → r b c → r a c) (runs : List (Environment × ℕ))
    (hr : ∀ run ∈ runs, Loses r run.1) (files : Files) :
    BecomesBitfield r (ReadsTorrent files runs) files (runs.foldl process files) := by
  -- By induction over the processes. Each of them finds the torrent as it was.
  induction runs generalizing files with
  | nil => exact .refl hrefl _ files
  | cons run runs ih =>
    obtain ⟨hrun, hruns⟩ := List.forall_mem_cons.mp hr
    have hprocess := becomesBitfield_process files run hrun
    have htorrent : process files run torrentFileName = files torrentFileName :=
      hprocess.others _ torrentFileName_ne
    refine (hprocess.trans htrans (ih hruns _)).mono fun torrent htorrent' => ?_
    rcases htorrent' with h | ⟨run', hrun', h⟩
    · exact ⟨run, List.mem_cons_self, h⟩
    · refine ⟨run', List.mem_cons_of_mem _ hrun', ?_⟩
      unfold FindsTorrent readFile at h ⊢
      rwa [htorrent] at h

/-- The streams of the bitfield work. -/
structure Environment.Works (env : Environment) : Prop where
  createEmptyFile : env.createEmptyFile = .whole
  readBitfield : env.readBitfield = .whole
  writeBitfield : env.writeBitfield = .whole

/-- Over all processes that follow one another, each with its own environment and however it ends,
the bitfield is made once and kept, except for what the streams lose at its end. Where the streams
of the bitfield work, nothing is lost. -/
theorem processes_keepBitfield (files : Files) (runs : List (Environment × ℕ)) :
    BecomesBitfield (· <+: ·) (ReadsTorrent files runs) files (runs.foldl process files) ∧
    ((∀ run ∈ runs, run.1.Works) →
      BecomesBitfield (· = ·) (ReadsTorrent files runs) files (runs.foldl process files)) := by
  refine ⟨?_, fun hworks => ?_⟩
  · have hpre (a b c : Bytes) (h : a <+: b) (h' : b <+: c) : a <+: c := h.trans h'
    exact becomesBitfield_foldl (fun _ => List.prefix_rfl) hpre runs
      (fun run _ => ⟨fun _ => List.prefix_rfl, hpre, Transfer.passes_prefix _,
        Transfer.passes_prefix _, Transfer.passes_prefix _⟩) files
  · have heq (a b c : Bytes) (h : a = b) (h' : b = c) : a = c := h.trans h'
    exact becomesBitfield_foldl (fun _ => rfl) heq runs
      (fun run hrun => ⟨fun _ => rfl, heq, Transfer.passes_eq (hworks run hrun).createEmptyFile,
        Transfer.passes_eq (hworks run hrun).readBitfield,
        Transfer.passes_eq (hworks run hrun).writeBitfield⟩) files

end Btor
