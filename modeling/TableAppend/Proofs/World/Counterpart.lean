import TableAppend.Proofs.FileTree.Spelling
import TableAppend.Proofs.World.Concurring
import TableAppend.Proofs.World.Missing
import TableAppend.Proofs.World.Storing

/-!
# Metadata in files and in a ledger

Two worlds are counterparts if the first one keeps in files what the second one has in its ledger and
both have the same other files.  They answer alike as long as the paths of data files keep away from
the places of metadata files.  Recording metadata then leaves counterparts, since the file of a path can
be written wherever the data file could.
-/

namespace TableAppend

open Change (run)
open FileTree (Skirts Step destination steps)

/-! ## Paths of data files -/

/-- The name of a metadata file or of its temporary form. -/
def Metadata.IsRecordName (text : String) : Prop :=
  ∃ name, text = name ++ ending ∨ text = name ++ ending ++ temporaryEnding

/-- The last character tells most names from those of metadata files. -/
theorem Metadata.not_isRecordName {text : String} (hmetadata : text.toList.getLast? ≠ some 'a')
    (htemporary : text.toList.getLast? ≠ some 'p') : ¬ IsRecordName text := by
  rintro ⟨name, rfl | rfl⟩
  · exact hmetadata (by simp [ending])
  · exact htemporary (by simp [temporaryEnding])

namespace Path

variable {data : Set Path} {path other : Path} {name : String}

/-- The places of the metadata files of data files and of their temporary forms. -/
def recordPlaces (data : Set Path) : Set Location :=
  {place | ∃ path ∈ data, place = destination (Metadata.path path) ∨
    place = destination ((Metadata.path path).besides Metadata.temporaryEnding)}

/-- Paths of data files that differ lead to different places, and none leads to or through a metadata
file. -/
structure KeepApart (data : Set Path) : Prop where
  named : ∀ path ∈ data, ∃ name, path.fileName? = some name
  same : ∀ path ∈ data, ∀ other ∈ data, destination path = destination other →
    path.same other = true
  skirts : ∀ path ∈ data, Skirts (recordPlaces data) path

/-- Neither the name nor the path of the metadata file is too long, also in its temporary form. -/
structure RecordsFit (path : Path) : Prop where
  name : ∀ name, path.fileName? = some name →
    (name ++ (Metadata.ending ++ Metadata.temporaryEnding)).utf8ByteSize ≤ FileTree.longestName
  text : (path.besides (Metadata.ending ++ Metadata.temporaryEnding)).text.utf8ByteSize ≤
    FileTree.longestPath

theorem exists_isRecordName_of_mem (hnamed : ∀ path ∈ data, ∃ name, path.fileName? = some name)
    {place : Location} (hplace : place ∈ recordPlaces data) :
    ∃ text, place.getLast? = some text ∧ Metadata.IsRecordName text := by
  obtain ⟨path, hpath, hplace⟩ := hplace
  obtain ⟨name, hname⟩ := hnamed path hpath
  obtain ⟨beside, -, -, hmetadata, htemporary⟩ := FileTree.exists_destinations hname
  rcases hplace with hplace | hplace
  · refine ⟨name ++ Metadata.ending, ?_, name, Or.inl (Eq.refl _)⟩
    rw [hplace, hmetadata, List.getLast?_concat]
  · refine ⟨name ++ Metadata.ending ++ Metadata.temporaryEnding, ?_, name, Or.inr (Eq.refl _)⟩
    rw [hplace, htemporary, List.getLast?_concat]

/-- All names in the location to which a way leads are names on the way. -/
theorem down_mem_of_mem_target {way : List Step} {here : Location}
    (hname : name ∈ way.foldl Step.target here) : name ∈ here ∨ .down name ∈ way := by
  induction way generalizing here with
  | nil => exact .inl hname
  | cons next rest ih =>
    rcases ih hname with hmem | hmem
    · cases next with
      | stay => exact .inl hmem
      | up => exact .inl (List.mem_of_mem_dropLast hmem)
      | down last =>
        rcases List.mem_append.mp hmem with hmem | hmem
        · exact .inl hmem
        · rw [List.mem_singleton.mp hmem]
          exact .inr List.mem_cons_self
    · exact .inr (List.mem_cons_of_mem _ hmem)

/-- Paths on which nothing is named like a metadata file keep apart. -/
theorem KeepApart.of_names (hnamed : ∀ path ∈ data, ∃ name, path.fileName? = some name)
    (hsame : ∀ path ∈ data, ∀ other ∈ data, destination path = destination other →
      path.same other = true)
    (hplain : ∀ path ∈ data, ∀ text, .down text ∈ steps path → ¬ Metadata.IsRecordName text) :
    KeepApart data where
  named := hnamed
  same := hsame
  skirts path hpath way hway hplace := by
    obtain ⟨text, hlast, hrecord⟩ := exists_isRecordName_of_mem hnamed hplace
    have hmem := (down_mem_of_mem_target (List.mem_of_getLast? hlast)).resolve_left List.not_mem_nil
    exact hplain path hpath text (hway.subset hmem) hrecord

/-- A name does not end in two different ways. -/
theorem append_temporary_ne (name other : String) :
    name ++ Metadata.temporaryEnding ≠ other ++ Metadata.ending := by
  intro hsame
  have hlast := congrArg (fun text => text.toList.getLast?) hsame
  simp [Metadata.temporaryEnding, Metadata.ending] at hlast

theorem utf8ByteSize_besides_le (hname : path.fileName? = some name) {first second : String}
    (hplain : '/' ∉ (first ++ second).toList) (hlong : 2 ≤ first.toList.length) :
    (path.besides first).text.utf8ByteSize ≤ (path.besides (first ++ second)).text.utf8ByteSize := by
  rw [String.toList_append, List.mem_append, not_or] at hplain
  obtain ⟨parent, hparent⟩ := exists_parent?_of_fileName? hname
  have hfirst := isName_append (isName_of_fileName? hname) hplain.1 hlong
  have hboth : '/' ∉ (name ++ (first ++ second)).toList := by
    rw [← String.append_assoc, String.toList_append, List.mem_append, not_or]
    exact ⟨hfirst.2.2.2, hplain.2⟩
  rw [besides_of_parent hname hparent, besides_of_parent hname hparent,
    utf8ByteSize_join _ hfirst.2.2.2, utf8ByteSize_join _ hboth]
  simp only [String.utf8ByteSize_append]
  omega

section TwoFiles

variable {last : String} (hname : path.fileName? = some name) (hlast : other.fileName? = some last)

include hname hlast

/-- Metadata files stand at one place exactly if their data files do. -/
theorem destination_metadata_eq_iff :
    destination (Metadata.path path) = destination (Metadata.path other) ↔
      destination path = destination other := by
  obtain ⟨beside, hpath, -, hmetadata, -⟩ := FileTree.exists_destinations hname
  obtain ⟨near, hother, -, hsecond, -⟩ := FileTree.exists_destinations hlast
  rw [hpath, hother, hmetadata, hsecond]
  constructor
  · intro hsame
    obtain ⟨rfl, hnames⟩ := List.append_inj' hsame rfl
    rw [(String.append_left_inj _).mp (List.cons.inj hnames).1]
  · intro hsame
    obtain ⟨rfl, hnames⟩ := List.append_inj' hsame rfl
    rw [(List.cons.inj hnames).1]

/-- So do their temporary forms. -/
theorem destination_temporary_eq_iff :
    destination ((Metadata.path path).besides Metadata.temporaryEnding) =
        destination ((Metadata.path other).besides Metadata.temporaryEnding) ↔
      destination path = destination other := by
  obtain ⟨beside, hpath, -, -, htemporary⟩ := FileTree.exists_destinations hname
  obtain ⟨near, hother, -, -, hscratch⟩ := FileTree.exists_destinations hlast
  rw [hpath, hother, htemporary, hscratch]
  constructor
  · intro hsame
    obtain ⟨rfl, hnames⟩ := List.append_inj' hsame rfl
    have hfull := (String.append_left_inj _).mp (List.cons.inj hnames).1
    rw [(String.append_left_inj _).mp hfull]
  · intro hsame
    obtain ⟨rfl, hnames⟩ := List.append_inj' hsame rfl
    rw [(List.cons.inj hnames).1]

/-- A metadata file never stands at the place of a temporary one. -/
theorem destination_metadata_ne_temporary : destination (Metadata.path path) ≠
    destination ((Metadata.path other).besides Metadata.temporaryEnding) := by
  obtain ⟨beside, -, -, hmetadata, -⟩ := FileTree.exists_destinations hname
  obtain ⟨near, -, -, -, htemporary⟩ := FileTree.exists_destinations hlast
  rw [hmetadata, htemporary]
  intro hsame
  obtain ⟨-, hnames⟩ := List.append_inj' hsame rfl
  exact append_temporary_ne _ _ (List.cons.inj hnames).1.symm

end TwoFiles

namespace KeepApart

variable (hdata : KeepApart data)

include hdata

theorem metadata_ne_temporary (hpath : path ∈ data) (hother : other ∈ data) :
    destination (Metadata.path path) ≠
      destination ((Metadata.path other).besides Metadata.temporaryEnding) := by
  obtain ⟨name, hname⟩ := hdata.named path hpath
  obtain ⟨last, hlast⟩ := hdata.named other hother
  exact destination_metadata_ne_temporary hname hlast

theorem same_iff (hpath : path ∈ data) (hother : other ∈ data) :
    path.same other = true ↔ destination (Metadata.path path) = destination (Metadata.path other) := by
  obtain ⟨name, hname⟩ := hdata.named path hpath
  obtain ⟨last, hlast⟩ := hdata.named other hother
  rw [destination_metadata_eq_iff hname hlast]
  exact ⟨FileTree.destination_eq_of_same, hdata.same path hpath other hother⟩

/-- The temporary form of a data file keeps away from metadata files as well. -/
theorem skirts_temporary (hpath : path ∈ data) :
    Skirts (recordPlaces data) (path.besides Metadata.temporaryEnding) := by
  obtain ⟨name, hname⟩ := hdata.named path hpath
  obtain ⟨beside, hplace, htemporary, -⟩ := FileTree.exists_destinations hname
  refine (hdata.skirts path hpath).besides hname (by decide) (by decide) ?_
  rw [htemporary]
  rintro ⟨other, hother, hmetadata⟩
  obtain ⟨last, hlast⟩ := hdata.named other hother
  obtain ⟨near, -, -, hfirst, hsecond⟩ := FileTree.exists_destinations hlast
  rw [hfirst, hsecond] at hmetadata
  rcases hmetadata with hsame | hsame
  · obtain ⟨-, hnames⟩ := List.append_inj' hsame rfl
    exact append_temporary_ne _ _ (List.cons.inj hnames).1
  · obtain ⟨rfl, hnames⟩ := List.append_inj' hsame rfl
    have hnamed := (String.append_left_inj _).mp (List.cons.inj hnames).1
    refine (hdata.skirts path hpath).destination_notMem ⟨other, hother, .inl ?_⟩
    rw [hplace, hfirst, hnamed]

end KeepApart

end Path

open TableAppend.Path (KeepApart recordPlaces)

/-- What is moved to a place at which the second tree has nothing is missing there. -/
theorem FileTree.Lacks.moved {lost : Set Location} {full bare : FileTree} {path scratch : Path}
    {content : Content} (hlacks : FileTree.Lacks lost full bare) (hscratch : destination scratch ∉ lost)
    (habsent : full.get? (destination scratch) = none)
    (hbare : bare.get? (destination path) = none) (hne : destination scratch ≠ destination path)
    (hputs : Puts full (full.moved (destination scratch) (destination path) content) path content
      [scratch]) :
    FileTree.Lacks (insert (destination path) lost)
      (full.moved (destination scratch) (destination path) content) bare := by
  have hget : ∀ {place}, place ≠ destination path → place ≠ destination scratch →
      (full.moved (destination scratch) (destination path) content).get? place = full.get? place := by
    intro place hplace hother
    refine hputs.get?_eq place hplace fun temporary hmem => ?_
    rwa [List.mem_singleton.mp hmem]
  refine ⟨fun place hplace => ?_, fun place hplace => ?_, fun place hplace => ?_,
    nodup_insertNode (nodup_eraseNode (nodup_insertNode hlacks.distinct)), hlacks.bareDistinct⟩
  · rw [Set.mem_insert_iff, not_or] at hplace
    rw [hlacks.kept place hplace.2]
    by_cases hother : place = destination scratch
    · rw [hother, habsent, hputs.gone scratch (List.mem_singleton_self _) hne]
    · rw [hget hplace.1 hother]
  · by_cases hsame : place = destination path
    · exact ⟨content, by rw [hsame, get?_of_node? hputs.node?]⟩
    · have hlost := (Set.mem_insert_iff.mp hplace).resolve_left hsame
      rw [hget hsame fun hother => hscratch (hother ▸ hlost)]
      exact hlacks.present place hlost
  · rcases Set.mem_insert_iff.mp hplace with rfl | hlost
    · exact hbare
    · exact hlacks.gone place hlost

namespace World

/-- The second world keeps in its ledger what the first one keeps in files: the metadata of those data
files whose metadata files are missing in the second one. -/
structure Counterpart (data : Set Path) (lost : Set Location) (ledger : Ledger)
    (files memory : World) : Prop where
  inFiles : files.ledger = none
  inLedger : memory.ledger = some ledger
  within : lost ⊆ recordPlaces data
  lacks : FileTree.Lacks lost files.tree memory.tree
  recorded : ∀ path ∈ data, destination (Metadata.path path) ∈ lost → ∃ metadata,
    ledger.lookup path = some metadata ∧ (path.RecordsFit →
      files.tree.node? (Metadata.path path) = some (.file (.bytes (Utf8.encode metadata.toText))))
  unrecorded : ∀ path ∈ data, destination (Metadata.path path) ∉ lost →
    ledger.lookup path = none ∧ files.tree.get? (destination (Metadata.path path)) = none
  temporary : ∀ path ∈ data,
    files.tree.get? (destination ((Metadata.path path).besides Metadata.temporaryEnding)) = none

theorem counterpart_empty {data : Set Path} (hdata : KeepApart data) :
    Counterpart data ∅ [] ⟨.empty, none⟩ ⟨.empty, some []⟩ where
  inFiles := rfl
  inLedger := rfl
  within := Set.empty_subset _
  lacks := .refl List.nodup_nil
  recorded _ _ hlost := absurd hlost (Set.notMem_empty _)
  unrecorded path hpath _ := by
    obtain ⟨name, hname⟩ := hdata.named path hpath
    obtain ⟨beside, -, -, hmetadata, -⟩ := FileTree.exists_destinations hname
    exact ⟨rfl, FileTree.get?_empty (by rw [hmetadata]; simp)⟩
  temporary path hpath := by
    obtain ⟨name, hname⟩ := hdata.named path hpath
    obtain ⟨beside, -, -, -, htemporary⟩ := FileTree.exists_destinations hname
    exact FileTree.get?_empty (by rw [htemporary]; simp)

namespace Counterpart

variable {data : Set Path} {lost : Set Location} {ledger : Ledger} {files memory after later : World}
  {path : Path} (hworlds : Counterpart data lost ledger files memory)

include hworlds

/-- The same is known of each data file. -/
theorem metadata_eq (hpath : path ∈ data) (hfits : path.RecordsFit) :
    memory.metadata path = files.metadata path := by
  have hmemory : memory.metadata path = .ok (ledger.lookup path) := by
    rw [metadata, hworlds.inLedger]
  rw [hmemory]
  by_cases hlost : destination (Metadata.path path) ∈ lost
  · obtain ⟨metadata, hlookup, hnode⟩ := hworlds.recorded path hpath hlost
    rw [metadata_of_node? hworlds.inFiles (hnode hfits), hlookup, metadata.ofText?_toText]
  · obtain ⟨hlookup, hget⟩ := hworlds.unrecorded path hpath hlost
    have hfile : files.tree.isFile (Metadata.path path) = false := by
      rw [Bool.eq_false_iff]
      intro hfile
      obtain ⟨content, hnode⟩ := FileTree.isFile_iff.mp hfile
      rw [FileTree.get?_of_node? hnode] at hget
      cases hget
    rw [metadata, hworlds.inFiles, hlookup]
    dsimp only
    rw [storedMetadata, hfile]
    rfl

/-- Changes that touch no metadata file leave counterparts. -/
theorem of_alongside (halong : Alongside lost (recordPlaces data) files memory after later) :
    Counterpart data lost ledger after later := by
  have hget : ∀ {path}, path ∈ data → ∀ {place}, (place = destination (Metadata.path path) ∨
      place = destination ((Metadata.path path).besides Metadata.temporaryEnding)) →
        after.tree.get? place = files.tree.get? place :=
    fun hpath _ hplace => halong.get?_eq _ ⟨_, hpath, hplace⟩
  refine ⟨halong.ledger.trans hworlds.inFiles, halong.bareLedger.trans hworlds.inLedger, hworlds.within,
    halong.lacks, fun path hpath hlost => ?_, fun path hpath hlost => ?_, fun path hpath => ?_⟩
  · obtain ⟨metadata, hlookup, hnode⟩ := hworlds.recorded path hpath hlost
    refine ⟨metadata, hlookup, fun hfits => halong.stay.node?_eq (hnode hfits) ?_⟩
    rw [hget hpath (.inl rfl)]
    exact FileTree.get?_of_node? (hnode hfits)
  · obtain ⟨hlookup, hnone⟩ := hworlds.unrecorded path hpath hlost
    exact ⟨hlookup, (hget hpath (.inl rfl)).trans hnone⟩
  · exact (hget hpath (.inr rfl)).trans (hworlds.temporary path hpath)

section Recording

variable (hpath : path ∈ data)

include hpath

theorem temporary_notMem :
    destination ((Metadata.path path).besides Metadata.temporaryEnding) ∉ lost := by
  intro hlost
  obtain ⟨content, hcontent⟩ := hworlds.lacks.present _ hlost
  rw [hworlds.temporary path hpath] at hcontent
  cases hcontent

/-- In the second world there is no metadata file. -/
theorem get?_metadata : memory.tree.get? (destination (Metadata.path path)) = none := by
  by_cases hlost : destination (Metadata.path path) ∈ lost
  · exact hworlds.lacks.gone _ hlost
  · rw [hworlds.lacks.kept _ hlost]
    exact (hworlds.unrecorded path hpath hlost).2

/-- Beside a data file its metadata can be recorded. -/
theorem writable_metadata {name : String} (hname : path.fileName? = some name)
    (hfits : path.RecordsFit) {node : Node} (hnode : files.tree.node? path = some node) :
    files.tree.Writable (Metadata.path path) ∧
      files.tree.Writable ((Metadata.path path).besides Metadata.temporaryEnding) := by
  have hshort := hfits.name name hname
  have hmetadata : files.tree.isDirectoryAt (destination (Metadata.path path)) = false := by
    rw [← hworlds.lacks.isDirectoryAt_eq, FileTree.isDirectoryAt, hworlds.get?_metadata hpath]
    rfl
  have htemporary : files.tree.isDirectoryAt
      (destination ((Metadata.path path).besides Metadata.temporaryEnding)) = false := by
    rw [FileTree.isDirectoryAt, hworlds.temporary path hpath]
    rfl
  rw [FileTree.besides_metadata hname] at htemporary ⊢
  refine ⟨FileTree.writable_besides hname hnode (by decide) (by decide) (by decide) ?_ ?_
    hmetadata, FileTree.writable_besides hname hnode (by decide) (by decide) (by decide) hshort
      hfits.text htemporary⟩
  · refine le_trans ?_ hshort
    simp only [String.utf8ByteSize_append]
    omega
  · exact (Path.utf8ByteSize_besides_le hname (by decide) (by decide)).trans hfits.text

/-- Counterparts are left where metadata come to a file in the first world and to the ledger in the
second one. -/
theorem record (hdata : KeepApart data) (metadata : Metadata) {tree : FileTree}
    (hputs : FileTree.Puts files.tree tree (Metadata.path path)
      (.bytes (Utf8.encode metadata.toText))
      [(Metadata.path path).besides Metadata.temporaryEnding])
    (hlacks : FileTree.Lacks (insert (destination (Metadata.path path)) lost) tree memory.tree) :
    Counterpart data (insert (destination (Metadata.path path)) lost) (ledger.record path metadata)
      { files with tree } { memory with ledger := some (ledger.record path metadata) } := by
  have hget : ∀ {place}, place ≠ destination (Metadata.path path) →
      place ≠ destination ((Metadata.path path).besides Metadata.temporaryEnding) →
      tree.get? place = files.tree.get? place := by
    intro place hne htemporary
    refine hputs.get?_eq place hne fun temporary hmem => ?_
    rwa [List.mem_singleton.mp hmem]
  have hother : ∀ {other}, other ∈ data →
      destination (Metadata.path other) ≠ destination (Metadata.path path) →
      (ledger.record path metadata).lookup other = ledger.lookup other ∧
        tree.get? (destination (Metadata.path other)) =
          files.tree.get? (destination (Metadata.path other)) := by
    intro other hother hne
    rw [Ledger.lookup_record, if_neg (mt (hdata.same_iff hpath hother).mp hne.symm)]
    exact ⟨rfl, hget hne (hdata.metadata_ne_temporary hother hpath)⟩
  refine ⟨hworlds.inFiles, rfl, ?_, hlacks, fun other hmem hlost => ?_, fun other hmem hlost => ?_,
    fun other hmem => ?_⟩
  · exact Set.insert_subset ⟨path, hpath, .inl rfl⟩ hworlds.within
  · by_cases hsame : destination (Metadata.path other) = destination (Metadata.path path)
    · have hspelled := (hdata.same_iff hpath hmem).mpr hsame.symm
      obtain ⟨name, hname⟩ := hdata.named path hpath
      obtain ⟨last, hlast⟩ := hdata.named other hmem
      refine ⟨metadata, by rw [Ledger.lookup_record, if_pos hspelled], fun hfits => ?_⟩
      exact FileTree.node?_besides_of_same hspelled hname hlast (by decide) (by decide)
        ((Path.utf8ByteSize_besides_le hlast (by decide) (by decide)).trans hfits.text) hputs.node?
    · obtain ⟨hlookup, hkept⟩ := hother hmem hsame
      obtain ⟨old, hold, hnode⟩ :=
        hworlds.recorded other hmem ((Set.mem_insert_iff.mp hlost).resolve_left hsame)
      exact ⟨old, hlookup.trans hold, fun hfits => hputs.same.stay.node?_eq (hnode hfits)
        (hkept.trans (FileTree.get?_of_node? (hnode hfits)))⟩
  · rw [Set.mem_insert_iff, not_or] at hlost
    obtain ⟨hlookup, hkept⟩ := hother hmem hlost.1
    obtain ⟨hnone, habsent⟩ := hworlds.unrecorded other hmem hlost.2
    exact ⟨hlookup.trans hnone, hkept.trans habsent⟩
  · have hne := (hdata.metadata_ne_temporary hpath hmem).symm
    by_cases hsame : destination ((Metadata.path other).besides Metadata.temporaryEnding) =
        destination ((Metadata.path path).besides Metadata.temporaryEnding)
    · rw [hsame] at hne ⊢
      exact hputs.gone _ (List.mem_singleton_self _) hne
    · exact (hget hne hsame).trans (hworlds.temporary other hmem)

/-- Metadata are recorded in both worlds, and they stay counterparts. -/
theorem recordMetadata (hdata : KeepApart data) (hfits : path.RecordsFit)
    (hfile : files.tree.isFile path = true) (metadata : Metadata) :
    ∃ lost ledger after later, run (World.recordMetadata path metadata) files = (.ok (), after) ∧
      run (World.recordMetadata path metadata) memory = (.ok (), later) ∧
        Counterpart data lost ledger after later := by
  obtain ⟨content, hnode⟩ := FileTree.isFile_iff.mp hfile
  obtain ⟨name, hname⟩ := hdata.named path hpath
  obtain ⟨hwritable, htemporary⟩ := hworlds.writable_metadata hpath hname hfits hnode
  have hputs := hwritable.puts_moved htemporary (.bytes (Utf8.encode metadata.toText))
  have hlacks := hworlds.lacks.moved (hworlds.temporary_notMem hpath) (hworlds.temporary path hpath)
    (hworlds.get?_metadata hpath) (hdata.metadata_ne_temporary hpath hpath).symm hputs
  exact ⟨_, _, _, _, (recordMetadata_eq_ok_iff_writable hworlds.inFiles
    (FileTree.exists_distinct hname).2.2).mpr ⟨htemporary, hwritable, rfl⟩,
    recordMetadata_of_ledger hworlds.inLedger path metadata,
    hworlds.record hpath hdata metadata hputs hlacks⟩

/-- What is written and then recorded goes alike, wherever it fails. -/
theorem write_and_record (hdata : KeepApart data) (hfits : path.RecordsFit)
    {write : Change Metadata} (hwrite : write.Concurs lost (recordPlaces data) Change.anyTree
      fun tree => tree.isFile path = true) {α : Type} (value : α) :
    Change.Agrees (do
        World.recordMetadata path (← write)
        return value) files memory
      fun files memory => ∃ lost ledger, Counterpart data lost ledger files memory := by
  obtain ⟨hsame, halong, hfile⟩ := hwrite files memory hworlds.lacks trivial
  have hwritten : write.Agrees files memory (Counterpart data lost ledger) :=
    ⟨hsame, hworlds.of_alongside halong⟩
  refine hwritten.bind (fun _ _ hleft => ⟨lost, ledger, hleft⟩)
    fun metadata after later hrun hbetween => ?_
  rw [hrun] at hfile
  obtain ⟨lost, ledger, last, final, hrecorded, hkept, hlast⟩ :=
    hbetween.recordMetadata hpath hdata hfits (hfile metadata rfl) metadata
  rw [Change.Agrees, Change.run_bind, Change.run_bind, hrecorded, hkept]
  exact ⟨rfl, lost, ledger, hlast⟩

end Recording

end Counterpart

end World

end TableAppend
