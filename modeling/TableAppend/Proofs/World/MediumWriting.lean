import TableAppend.Proofs.Outcome
import TableAppend.Proofs.World.Confined
import TableAppend.Proofs.World.Reading

/-!
# Writing rows

What it takes for a medium to write rows at a path, and what is there afterwards.
-/

namespace TableAppend

open FileTree (Admits FilePut destination)
open TableAppend.Path (LiesIn)

namespace Change

variable {α : Type} {world : World}

/-- A failure that is caught is dealt with in the world it has left. -/
theorem run_tryCatch (change : Change α) (handle : Failure → Change α) (world : World) :
    run (tryCatch change handle) world =
      match run change world with
      | (.ok value, after) => (.ok value, after)
      | (.error failure, after) => run (handle failure) after := by
  simp only [run, tryCatch, tryCatchThe, MonadExceptOf.tryCatch, ExceptT.tryCatch, ExceptT.mk,
    StateT.run, ExceptT.run, bind]
  unfold StateT.bind
  dsimp only [bind]
  rcases (change world : Outcome α × World) with ⟨_ | _, after⟩ <;> rfl

theorem run_ofOutcome_eq_ok_iff {outcome : Outcome α} {value : α} {after : World} :
    run (ofOutcome outcome) world = (.ok value, after) ↔ outcome = .ok value ∧ after = world := by
  rw [run_ofOutcome, Prod.mk.injEq]
  exact and_congr_right fun _ => eq_comm

theorem run_inspect_eq_ok_iff {question : World → Outcome α} {value : α} {after : World} :
    run (inspect question) world = (.ok value, after) ↔
      question world = .ok value ∧ after = world := by
  rw [run_inspect, Prod.mk.injEq]
  exact and_congr_right fun _ => eq_comm

theorem run_pure_eq_ok_iff {given value : α} {after : World} :
    run (pure given) world = (.ok value, after) ↔ given = value ∧ after = world := by
  rw [run_pure, Prod.mk.injEq, Except.ok.injEq]
  exact and_congr_right fun _ => eq_comm

end Change

open Change (run run_bind_eq_ok_iff run_onTree_eq_ok_iff run_ofOutcome_eq_ok_iff
  run_inspect_eq_ok_iff run_pure_eq_ok_iff)

variable {world after : World} {path : Path} {place : Location} {rows : Batch} {layout : Layout}
  {metadata : Metadata}

/-- The world with a file at a location. -/
def World.putFile (world : World) (place : Location) (content : Content) : World :=
  { world with tree := world.tree.set place (.file content) }

/-! ## Delimited files -/

namespace Delimited

/-- The bytes of a new file. -/
def newBytes (dialect : Dialect) (rows : Batch) : Bytes :=
  writeHeader dialect rows.columns ++ writeRows dialect rows

/-- The bytes of a file to which rows in the order of its columns are added. -/
def addedBytes (dialect : Dialect) (stored : Bytes) (ordered : Batch) : Bytes :=
  stored ++ missingLineEnd stored ++ writeRows dialect ordered

theorem write_new_eq_ok_iff_writable {dialect : Dialect} (hlayout : layout.columns = none) :
    run (write dialect path rows layout) world = (.ok metadata, after) ↔
      world.tree.Writable path ∧ metadata = metadataOf dialect ∧
        after = world.putFile (destination path) (.bytes (newBytes dialect rows)) := by
  rw [write]
  simp only [hlayout, run_bind_eq_ok_iff, run_onTree_eq_ok_iff, run_pure_eq_ok_iff,
    FileTree.write_eq_ok_iff_writable]
  constructor
  · rintro ⟨⟨⟩, between, ⟨tree, ⟨hwritable, rfl⟩, rfl⟩, rfl, rfl⟩
    exact ⟨hwritable, rfl, rfl⟩
  · rintro ⟨hwritable, rfl, rfl⟩
    exact ⟨(), _, ⟨_, ⟨hwritable, rfl⟩, rfl⟩, rfl, rfl⟩

theorem write_new_eq_ok_iff (hworld : world.tree.WellFormed) (hpath : path.LiesIn place)
    {dialect : Dialect} (hlayout : layout.columns = none) :
    run (write dialect path rows layout) world = (.ok metadata, after) ↔
      world.tree.Admits path ∧ world.tree.isDirectoryAt place = true ∧
        metadata = metadataOf dialect ∧
          after = world.putFile path.location (.bytes (newBytes dialect rows)) := by
  rw [write_new_eq_ok_iff_writable hlayout, FileTree.writable_iff_admits hworld hpath.1,
    hpath.dropLast_location, FileTree.destination_of_descends hpath.1, and_assoc]

/-- The last line of the file is ended, and rows in the order of its columns come after it. -/
theorem write_added_eq_ok_iff_appends {dialect : Dialect} {header : List String}
    (hlayout : layout.columns = some header) :
    run (write dialect path rows layout) world = (.ok metadata, after) ↔
      ∃ ended ordered added,
        (world.tree.readBytes path >>= fun bytes => world.tree.append path (missingLineEnd bytes)) =
          .ok ended ∧
        rows.project header = .ok ordered ∧
        ended.append path (writeRows dialect ordered) = .ok added ∧
        metadata = metadataOf dialect ∧ after = { world with tree := added } := by
  rw [write]
  simp only [hlayout]
  constructor
  · intro hrun
    obtain ⟨⟨⟩, first, hone, htwo⟩ := run_bind_eq_ok_iff.mp hrun
    obtain ⟨ordered, second, hproject, hthree⟩ := run_bind_eq_ok_iff.mp htwo
    obtain ⟨⟨⟩, third, hadd, hresult⟩ := run_bind_eq_ok_iff.mp hthree
    obtain ⟨ended, hended, rfl⟩ := run_onTree_eq_ok_iff.mp hone
    obtain ⟨hordered, rfl⟩ := run_ofOutcome_eq_ok_iff.mp hproject
    obtain ⟨added, hadded, rfl⟩ := run_onTree_eq_ok_iff.mp hadd
    obtain ⟨rfl, rfl⟩ := run_pure_eq_ok_iff.mp hresult
    exact ⟨ended, ordered, added, hended, hordered, hadded, rfl, rfl⟩
  · rintro ⟨ended, ordered, added, hended, hordered, hadded, rfl, rfl⟩
    refine run_bind_eq_ok_iff.mpr ⟨(), _, run_onTree_eq_ok_iff.mpr ⟨_, hended, rfl⟩, ?_⟩
    refine run_bind_eq_ok_iff.mpr ⟨ordered, _, run_ofOutcome_eq_ok_iff.mpr ⟨hordered, rfl⟩, ?_⟩
    exact run_bind_eq_ok_iff.mpr ⟨(), _, run_onTree_eq_ok_iff.mpr ⟨_, hadded, rfl⟩,
      run_pure_eq_ok_iff.mpr ⟨rfl, rfl⟩⟩

/-- Rows are added only to a file that is there. -/
theorem exists_node?_of_write_added {dialect : Dialect} {header : List String}
    (hlayout : layout.columns = some header)
    (hrun : run (write dialect path rows layout) world = (.ok metadata, after)) :
    ∃ content, world.tree.node? path = some (.file content) := by
  obtain ⟨ended, -, -, hended, -⟩ := (write_added_eq_ok_iff_appends hlayout).mp hrun
  obtain ⟨bytes, hbytes, -⟩ := FileTree.exists_of_bind_eq_ok hended
  exact FileTree.exists_node?_of_readBytes hbytes

/-- Ending the last line and adding rows is the same as writing all bytes at once. -/
theorem write_added_eq_ok_iff_writable {dialect : Dialect} {header : List String}
    {content : Content} (hlayout : layout.columns = some header) (hwritable : world.tree.Writable path)
    (hnode : world.tree.node? path = some (.file content)) :
    run (write dialect path rows layout) world = (.ok metadata, after) ↔
      ∃ ordered, rows.project header = .ok ordered ∧ metadata = metadataOf dialect ∧
        after = world.putFile (destination path)
          (.bytes (addedBytes dialect content.toBytes ordered)) := by
  have hended := FileTree.append_eq_set hnode (missingLineEnd content.toBytes)
  have hfirst : world.tree.readBytes path >>= (fun bytes =>
      world.tree.append path (missingLineEnd bytes)) =
        .ok (world.putFile (destination path)
          (.bytes (content.toBytes ++ missingLineEnd content.toBytes))).tree := by
    rw [FileTree.readBytes_of_node? hnode]
    exact hended
  have hsecond : ∀ ordered : Batch, (world.putFile (destination path)
      (.bytes (content.toBytes ++ missingLineEnd content.toBytes))).tree.append path
        (writeRows dialect ordered) = .ok (world.putFile (destination path)
          (.bytes (addedBytes dialect content.toBytes ordered))).tree := by
    intro ordered
    rw [World.putFile, World.putFile, FileTree.append_eq_set (hwritable.node?_set _),
      FileTree.set_set]
    rfl
  rw [write_added_eq_ok_iff_appends hlayout]
  constructor
  · rintro ⟨ended, ordered, added, hended, hordered, hadded, rfl, rfl⟩
    obtain rfl := Except.ok.inj (hfirst.symm.trans hended)
    obtain rfl := Except.ok.inj ((hsecond ordered).symm.trans hadded)
    exact ⟨ordered, hordered, rfl, rfl⟩
  · rintro ⟨ordered, hordered, rfl, rfl⟩
    exact ⟨_, ordered, _, hfirst, hordered, hsecond ordered, rfl, rfl⟩

theorem write_added_eq_ok_iff (hpath : path.LiesIn place)
    {dialect : Dialect} {header : List String} (hlayout : layout.columns = some header)
    {content : Content} (hnode : world.tree.node? path = some (.file content)) :
    run (write dialect path rows layout) world = (.ok metadata, after) ↔
      ∃ ordered, rows.project header = .ok ordered ∧ metadata = metadataOf dialect ∧
        after = world.putFile path.location
          (.bytes (addedBytes dialect content.toBytes ordered)) := by
  obtain ⟨-, name, hname, -⟩ := id hpath
  have hwritable := FileTree.writable_of_node? hname hnode
  rw [write_added_eq_ok_iff_writable hlayout hwritable hnode,
    FileTree.destination_of_descends hpath.1]

end Delimited

/-! ## Columnar files -/

namespace Columnar

theorem save_eq_ok_iff {codec : Codec} {schema : Schema} {value : Unit} :
    run (save codec schema rows path) world = (.ok value, after) ↔
      ∃ content, codec.save schema rows = .ok (content, none) ∧
        run (Change.onTree fun tree => tree.write path content) world = (.ok (), after) := by
  rw [save]
  constructor
  · intro hrun
    obtain ⟨⟨content, failure?⟩, first, hsave, hrest⟩ := run_bind_eq_ok_iff.mp hrun
    obtain ⟨hsaved, rfl⟩ := run_ofOutcome_eq_ok_iff.mp hsave
    obtain ⟨⟨⟩, second, hwrite, hresult⟩ := run_bind_eq_ok_iff.mp hrest
    cases failure? with
    | none =>
      obtain ⟨-, rfl⟩ := run_pure_eq_ok_iff.mp hresult
      exact ⟨content, hsaved, hwrite⟩
    | some failure =>
      rw [Change.run_throw] at hresult
      simp at hresult
  · rintro ⟨content, hsaved, hwrite⟩
    refine run_bind_eq_ok_iff.mpr ⟨(content, none), world,
      run_ofOutcome_eq_ok_iff.mpr ⟨hsaved, rfl⟩, ?_⟩
    exact run_bind_eq_ok_iff.mpr ⟨(), after, hwrite, run_pure_eq_ok_iff.mpr ⟨rfl, rfl⟩⟩

/-- A failed saving is cleaned up after and stays a failure. -/
theorem save_or_discard_eq_ok_iff {change : Change Unit} {value : Unit} :
    run (tryCatch change fun failure => do
        discard path
        throw failure) world = (.ok value, after) ↔ run change world = (.ok (), after) := by
  have hdiscard : ∀ failure world,
      run (do discard path; throw failure : Change Unit) world =
        (.error failure, (run (discard path) world).2) := by
    intro failure world
    rw [Change.run_bind]
    rfl
  rw [Change.run_tryCatch]
  rcases run change world with ⟨failure | found, between⟩
  · dsimp only
    rw [hdiscard]
    simp
  · simp

/-- Rows are saved under a temporary name and moved to their place. -/
theorem write_eq_ok_iff_moves {codec : Option Codec} :
    run (write codec path rows layout) world = (.ok metadata, after) ↔
      ∃ present all schema content, codec = some present ∧
        allRows world.tree path rows layout = .ok all ∧
        keptSchema world.tree path layout = .ok schema ∧
        present.save schema all = .ok (content, none) ∧
        metadata = .columnar (UInt64.ofNat all.size) ∧
        run (Change.replace path content) world = (.ok (), after) := by
  rw [write]
  constructor
  · intro hrun
    obtain ⟨present, first, hcodec, hafterCodec⟩ := run_bind_eq_ok_iff.mp hrun
    obtain ⟨hpresent, rfl⟩ := run_ofOutcome_eq_ok_iff.mp hcodec
    obtain ⟨all, second, hall, hafterRows⟩ := run_bind_eq_ok_iff.mp hafterCodec
    obtain ⟨hallRows, rfl⟩ := run_inspect_eq_ok_iff.mp hall
    obtain ⟨schema, third, hschema, hafterSchema⟩ := run_bind_eq_ok_iff.mp hafterRows
    obtain ⟨hkept, rfl⟩ := run_inspect_eq_ok_iff.mp hschema
    obtain ⟨⟨⟩, saved, hsave, hafterSave⟩ := run_bind_eq_ok_iff.mp hafterSchema
    obtain ⟨⟨⟩, renamed, hrename, hresult⟩ := run_bind_eq_ok_iff.mp hafterSave
    obtain ⟨rfl, rfl⟩ := run_pure_eq_ok_iff.mp hresult
    obtain ⟨content, hcontent, hwrite⟩ := save_eq_ok_iff.mp (save_or_discard_eq_ok_iff.mp hsave)
    exact ⟨present, all, schema, content, Codec.require_eq_ok_iff.mp hpresent, hallRows, hkept,
      hcontent, rfl,
      run_bind_eq_ok_iff.mpr ⟨(), saved, hwrite, hrename⟩⟩
  · rintro ⟨present, all, schema, content, rfl, hall, hschema, hcontent, rfl, hreplace⟩
    obtain ⟨⟨⟩, saved, hwrite, hrename⟩ := run_bind_eq_ok_iff.mp hreplace
    refine run_bind_eq_ok_iff.mpr ⟨present, world, run_ofOutcome_eq_ok_iff.mpr ⟨rfl, rfl⟩, ?_⟩
    refine run_bind_eq_ok_iff.mpr ⟨all, world, run_inspect_eq_ok_iff.mpr ⟨hall, rfl⟩, ?_⟩
    refine run_bind_eq_ok_iff.mpr ⟨schema, world, run_inspect_eq_ok_iff.mpr ⟨hschema, rfl⟩, ?_⟩
    refine run_bind_eq_ok_iff.mpr ⟨(), saved, save_or_discard_eq_ok_iff.mpr
      (save_eq_ok_iff.mpr ⟨content, hcontent, hwrite⟩), ?_⟩
    exact run_bind_eq_ok_iff.mpr ⟨(), after, hrename, run_pure_eq_ok_iff.mpr ⟨rfl, rfl⟩⟩

theorem write_eq_ok_iff (hworld : world.tree.WellFormed) (hpath : path.LiesIn place)
    {codec : Option Codec} :
    run (write codec path rows layout) world = (.ok metadata, after) ↔
      ∃ present all schema content, codec = some present ∧
        allRows world.tree path rows layout = .ok all ∧
        keptSchema world.tree path layout = .ok schema ∧
        present.save schema all = .ok (content, none) ∧
        world.tree.Admits (path.besides Metadata.temporaryEnding) ∧ world.tree.Admits path ∧
        world.tree.isDirectoryAt place = true ∧ metadata = .columnar (UInt64.ofNat all.size) ∧
        after = { world with tree := Change.replaced world.tree path content } := by
  rw [write_eq_ok_iff_moves]
  constructor
  · rintro ⟨present, all, schema, content, hcodec, hall, hschema, hcontent, hmetadata, hreplace⟩
    obtain ⟨hscratch, hadmits, hdirectory, heq⟩ :=
      (Change.replace_eq_ok_iff hworld hpath).mp hreplace
    exact ⟨present, all, schema, content, hcodec, hall, hschema, hcontent, hscratch, hadmits,
      hdirectory, hmetadata, heq⟩
  · rintro ⟨present, all, schema, content, hcodec, hall, hschema, hcontent, hscratch, hadmits,
      hdirectory, hmetadata, heq⟩
    exact ⟨present, all, schema, content, hcodec, hall, hschema, hcontent, hmetadata,
      (Change.replace_eq_ok_iff hworld hpath).mpr ⟨hscratch, hadmits, hdirectory, heq⟩⟩

end Columnar

/-! ## Either medium -/

theorem FileTree.filePut_putFile (hworld : world.tree.WellFormed) (hpath : path.LiesIn place)
    (hdirectory : world.tree.isDirectoryAt place = true)
    (hnot : world.tree.get? path.location ≠ some .directory) (content : Content) :
    FilePut world.tree (world.putFile path.location content).tree path.location content [] := by
  apply filePut_set hworld (fun name hname => Path.isName_of_mem_location hname) _ hnot
  rwa [hpath.dropLast_location]

/-- What a file holds after rows have been written to it, and what is to be recorded of it. -/
def Medium.Stores (medium : Medium) (tree : FileTree) (path : Path) (rows : Batch) (layout : Layout)
    (content : Content) (metadata : Metadata) : Prop :=
  match medium with
  | .delimited dialect => metadata = Delimited.metadataOf dialect ∧
    match layout.columns with
    | none => content = .bytes (Delimited.newBytes dialect rows)
    | some header => ∃ old ordered, tree.node? path = some (.file old) ∧
        rows.project header = .ok ordered ∧
          content = .bytes (Delimited.addedBytes dialect old.toBytes ordered)
  | .columnar codec => ∃ present all schema, codec = some present ∧
    Columnar.allRows tree path rows layout = .ok all ∧
      Columnar.keptSchema tree path layout = .ok schema ∧
        present.save schema all = .ok (content, none) ∧
          metadata = .columnar (UInt64.ofNat all.size)

/-- The temporary files by way of which rows are written. -/
def Medium.scratch (medium : Medium) (path : Path) : List Path :=
  match medium with
  | .delimited _ => []
  | .columnar _ => [path.besides Metadata.temporaryEnding]

/-- Rows that are written come to the file of the path, and nothing else changes but the temporary
files. -/
theorem Medium.filePut_of_write (hworld : world.tree.WellFormed) (hpath : path.LiesIn place)
    {medium : Medium} (hrun : run (medium.write path rows layout) world = (.ok metadata, after)) :
    ∃ tree content, medium.Stores world.tree path rows layout content metadata ∧
      world.tree.Admits path ∧ (∀ temporary ∈ medium.scratch path, world.tree.Admits temporary) ∧
        FilePut world.tree tree path.location content ((medium.scratch path).map Path.location) ∧
          after = { world with tree } := by
  cases medium with
  | delimited dialect =>
    cases hlayout : layout.columns with
    | none =>
      obtain ⟨hadmits, hdirectory, rfl, rfl⟩ :=
        (Delimited.write_new_eq_ok_iff hworld hpath hlayout).mp hrun
      refine ⟨_, _, ⟨rfl, ?_⟩, hadmits, by simp [scratch],
        FileTree.filePut_putFile hworld hpath hdirectory hadmits.notDirectory _, rfl⟩
      rw [hlayout]
    | some header =>
      obtain ⟨content, hnode⟩ := Delimited.exists_node?_of_write_added hlayout hrun
      obtain ⟨ordered, hordered, rfl, rfl⟩ :=
        (Delimited.write_added_eq_ok_iff hpath hlayout hnode).mp hrun
      obtain ⟨-, name, hname, -⟩ := id hpath
      obtain ⟨hadmits, hdirectory⟩ := (FileTree.writable_iff_admits hworld hpath.1).mp
        (FileTree.writable_of_node? hname hnode)
      rw [hpath.dropLast_location] at hdirectory
      refine ⟨_, _, ⟨rfl, ?_⟩, hadmits, by simp [scratch],
        FileTree.filePut_putFile hworld hpath hdirectory hadmits.notDirectory _, rfl⟩
      rw [hlayout]
      exact ⟨content, ordered, hnode, hordered, rfl⟩
  | columnar codec =>
    obtain ⟨present, all, schema, content, hcodec, hall, hschema, hsave, htemporary, hadmits,
      hdirectory, hmetadata, rfl⟩ := (Columnar.write_eq_ok_iff hworld hpath).mp hrun
    exact ⟨_, content, ⟨present, all, schema, hcodec, hall, hschema, hsave, hmetadata⟩, hadmits,
      fun temporary hmem => List.mem_singleton.mp hmem ▸ htemporary,
      Change.filePut_replaced hworld hpath htemporary hadmits hdirectory, rfl⟩

theorem Medium.eq_of_mem_scratch {medium : Medium} {temporary : Path}
    (hmem : temporary ∈ medium.scratch path) :
    temporary = path.besides Metadata.temporaryEnding := by
  cases medium with
  | delimited dialect => exact absurd hmem List.not_mem_nil
  | columnar codec => exact List.mem_singleton.mp hmem

theorem Medium.location_of_mem_scratch {medium : Medium} {other : Location}
    (hmem : other ∈ (medium.scratch path).map Path.location) :
    other = (path.besides Metadata.temporaryEnding).location := by
  obtain ⟨temporary, htemporary, rfl⟩ := List.mem_map.mp hmem
  rw [medium.eq_of_mem_scratch htemporary]

theorem Medium.exists_filePut_of_write (hworld : world.tree.WellFormed) (hpath : path.LiesIn place)
    {medium : Medium} (hrun : run (medium.write path rows layout) world = (.ok metadata, after)) :
    ∃ tree content gone, FileTree.Reachable path ∧
      medium.Stores world.tree path rows layout content metadata ∧
        FilePut world.tree tree path.location content gone ∧
          (∀ other ∈ gone, other = (path.besides Metadata.temporaryEnding).location) ∧
            after = { world with tree } := by
  obtain ⟨tree, content, hstores, hadmits, -, hput, hafter⟩ := medium.filePut_of_write hworld hpath hrun
  exact ⟨tree, content, _, ⟨hadmits.usable, hadmits.endsInName⟩, hstores, hput,
    fun _ => medium.location_of_mem_scratch, hafter⟩

theorem Medium.confined_of_write (hworld : world.tree.WellFormed) (hpath : path.LiesIn place)
    {medium : Medium} (hrun : run (medium.write path rows layout) world = (.ok metadata, after)) :
    World.Confined place world after := by
  obtain ⟨tree, content, gone, -, -, hput, hgone, rfl⟩ :=
    medium.exists_filePut_of_write hworld hpath hrun
  obtain ⟨-, name, -, hlocation⟩ := id hpath
  obtain ⟨-, scratch, -, hscratch⟩ := hpath.temporary
  rw [hlocation] at hput
  apply World.confined_of_filePut hput
  intro other hother
  exact ⟨scratch, (hgone other hother).trans hscratch⟩

end TableAppend
