import Mathlib
import Bisection.Proofs.AreaDocument
import Bisection.Proofs.Files
import Bisection.Proofs.Lookup
import Bisection.Proofs.NodeDocument
import Bisection.Proofs.PrefixCode

namespace Bisection

theorem mapError_eq_ok {ε ε' α : Type} {f : ε → ε'} {x : Except ε α} {a : α} :
    x.mapError f = .ok a ↔ x = .ok a := by
  cases x <;> simp [Except.mapError]

theorem Response.also_succeeds {r : Response} {files : Except Report (List (String × String))}
    (h : (r.also true files).failure = none) :
    ∃ written, files = .ok written ∧ (r.also true files).writes = r.writes ++ written := by
  obtain ⟨printed, writes, failure⟩ := r
  cases failure with
  | some failure => cases h
  | none =>
      cases files with
      | error report => cases h
      | ok written => exact ⟨written, rfl, rfl⟩

def Config.InField (c : Config) (p : Point) : Prop := ∀ v ∈ p, -c.fieldSize ≤ v ∧ v ≤ c.fieldSize

instance (c : Config) (p : Point) : Decidable (c.InField p) :=
  inferInstanceAs (Decidable (∀ v ∈ p, -c.fieldSize ≤ v ∧ v ≤ c.fieldSize))

namespace Partition

variable {config : Config} {rule : AxisRule} {points : PointSet} {P : Partition} {root : Region} {tree : Tree}

namespace Holds

theorem field_contains_iff (h : Holds rule config points P root tree) {p : Point} : P.bounds.contains p = true ↔
    p.length = P.dimensions ∧ config.InField p := by
  obtain ⟨hfin, hpos, -, -⟩ := checkInput_spec h.accepted
  rw [h.contains_iff, h.region_bounds, (proper_field hfin hpos _).spans.contains_iff, dimensions, h.input]
  apply and_congr_right
  intro hlength
  rw [Config.InField, List.forall_mem_iff_getElem]
  simp +contextual [Config.field, Box.cube, ← hlength]

theorem dimensions_lt (h : Holds rule config points P root tree) : P.dimensions < UInt64.size := by
  obtain ⟨-, -, hkept, -⟩ := checkInput_spec h.accepted
  rw [dimensions, h.input]
  have hlt : 8 * points.dimensions < 0x8000000000000000 := by simpa [addressable] using hkept
  rw [UInt64.size]
  omega

theorem readAreas_areas (h : Holds rule config points P root tree) (hpos : 0 < points.dimensions) (hf : P.FiniteCuts) :
    Document.readAreas (Document.writeAreas P.areas) = .ok P.areas := by
  have hproper := (h.wellFormed (h.sound (h.finite_of_finiteCuts hf))).proper
  have hwritable : ∀ a ∈ P.areas.areas, Document.Writable P.dimensions a := by
    intro a ha
    obtain ⟨n, hn, rfl⟩ := List.mem_map.1 ha
    have hbox := hproper n (h.mem_nodes_of_mem_leaves hn)
    have hcomplete : Document.Complete P.dimensions ⟨n.bounds, n.label⟩ :=
      ⟨hbox.spans.low, hbox.spans.high, fun v hv => hbox.isFinite_of_mem hv, n.path.label_chars⟩
    exact hcomplete.writable
  have hdim : 0 < P.areas.dimensions := by
    change 0 < P.input.dimensions
    rwa [h.input]
  exact Document.readAreas_written hdim h.dimensions_lt hwritable

end Holds

end Partition

namespace Command

variable {options : PartitionOptions} {content : Except IoFault String}

theorem load_eq_ok {α : Type} {context : String} {read : String → Except Error α} {a : α} :
    load context read content = .ok a ↔ ∃ text, content = .ok text ∧ read text = .ok a := by
  cases content with
  | error fault => simp [load]
  | ok text => simp [load, mapError_eq_ok]

/-- What a run that succeeded has read, built and, at last, written. -/
theorem runPartition_succeeds (hareas : options.writeAreas = true)
    (hok : (runPartition options content).failure = none) :
    ∃ text points P file, content = .ok text ∧ Document.readPoints text = .ok points ∧
      Partition.build options.config points = .ok P ∧ outputPath options "areas_" = .ok file ∧
      (runPartition options content).writes.getLast? = some (file, Document.writeAreas P.areas) := by
  cases hbuilt : (load ("failed to load node list " ++ options.nodeFile) Document.readPoints content).bind fun points =>
      (Partition.build options.config points).mapError (Failure.ofError "failed to build partition") with
  | error failure =>
      simp only [runPartition, bind, hbuilt] at hok
      cases hok
  | ok P =>
      simp only [runPartition, bind, hbuilt, hareas] at hok ⊢
      obtain ⟨points, hload, hbuild⟩ := bind_eq_ok.1 hbuilt
      obtain ⟨text, htext, hpoints⟩ := load_eq_ok.1 hload
      obtain ⟨written, hfiles, hwrites⟩ := Response.also_succeeds hok
      obtain ⟨file, hfile, hwritten⟩ := bind_eq_ok.1 hfiles
      cases hwritten
      refine ⟨text, points, P, file, htext, hpoints, mapError_eq_ok.1 hbuild, hfile, ?_⟩
      rw [hwrites, List.getLast?_concat]

/-- If partitioning succeeds with finite cuts, every later lookup in the area file that it wrote prints the label of
the leaf where the partition locates the point, and fails for a point outside the field or of another dimension. -/
theorem lookup_answers_locate (hareas : options.writeAreas = true)
    (hok : (runPartition options content).failure = none) :
    ∃ text points P file, content = .ok text ∧ Document.readPoints text = .ok points ∧
      Partition.build options.config points = .ok P ∧ outputPath options "areas_" = .ok file ∧
      (runPartition options content).writes.getLast? = some (file, Document.writeAreas P.areas) ∧
      (P.FiniteCuts → ∀ read, ReadsBack (runPartition options content).writes read → ∀ coords : Point,
        (coords.length = P.dimensions → options.config.InField coords → ∃ leaf, P.locate? coords = some leaf ∧
          runLookup file coords (read file) = { printed := leaf.label ++ "\n" }) ∧
        (coords.length = P.dimensions → ¬options.config.InField coords → P.locate? coords = none ∧
          runLookup file coords (read file) =
            { failure := some (.report ⟨"no area contains " ++ pointText coords, []⟩) }) ∧
        (coords.length ≠ P.dimensions → P.locate? coords = none ∧
          runLookup file coords (read file) =
            { failure := some (.report ⟨s!"expected {P.dimensions} coordinates, got {coords.length}", []⟩) })) := by
  obtain ⟨text, points, P, file, htext, hpoints, hb, hfile, hlast⟩ := runPartition_succeeds hareas hok
  refine ⟨text, points, P, file, htext, hpoints, hb, hfile, hlast, ?_⟩
  intro hf read hread coords
  have hv := Document.valid_of_readPoints hpoints
  obtain ⟨root, tree, h⟩ := Partition.holds_of_ok hv hb
  have hload : load ("failed to read area list " ++ file) Document.readAreas (read file) = .ok P.areas :=
    load_eq_ok.2 ⟨_, hread file _ hlast, h.readAreas_areas hv.1 hf⟩
  have hdim : P.areas.dimensions = P.dimensions := rfl
  refine ⟨?_, ?_, ?_⟩
  · intro hlength hin
    obtain ⟨leaf, hleaf, -, -, -, hlabel⟩ := h.exists_locate? (h.field_contains_iff.2 ⟨hlength, hin⟩)
    exact ⟨leaf, hleaf, by simp [runLookup, hload, hdim, hlength, hlabel]⟩
  · intro hlength hout
    have hnot : ¬P.bounds.contains coords = true := fun hc => hout (h.field_contains_iff.1 hc).2
    refine ⟨h.locate?_eq_none hnot, ?_⟩
    simp [runLookup, hload, hdim, hlength, h.labelAt?_eq_none hf hnot]
  · intro hlength
    have hnot : ¬P.bounds.contains coords = true := fun hc => hlength (h.field_contains_iff.1 hc).1
    refine ⟨h.locate?_eq_none hnot, ?_⟩
    simp [runLookup, hload, hdim, hlength]

def planeNodes : String :=
  "<nodelist dimensions=\"2\"><node><coord>3</coord><coord>-0.5</coord></node>" ++
    "<node><coord>1</coord><coord>1e2</coord></node></nodelist>"

theorem readPoints_planeNodes : ∃ points, Document.readPoints planeNodes = .ok points ∧ points.dimensions = 2 ∧
    Partition.checkInput {} points = .ok () := by
  have haccepted : ((Document.readPoints planeNodes).toOption.any fun s =>
      s.dimensions == 2 && (Partition.checkInput {} s).isOk) = true := by
    decide +kernel
  cases hpoints : Document.readPoints planeNodes with
  | error e => simp [hpoints, Except.toOption] at haccepted
  | ok points =>
      simp only [hpoints, Except.toOption, Option.any_some, Bool.and_eq_true, beq_iff_eq] at haccepted
      refine ⟨points, rfl, haccepted.1, ?_⟩
      cases hin : Partition.checkInput {} points with
      | error e => simp [hin, Except.isOk, Except.toBool] at haccepted
      | ok _ => rfl

theorem lookup_answers_locate_between :
    ∃ points P t leaf, Document.readPoints planeNodes = .ok points ∧ Partition.build {} points = .ok P ∧
      P.FiniteCuts ∧ (runPartition { nodeFile := "nodes.xml" } (.ok planeNodes)).failure = none ∧
      FileTree.writeAll ⟨[], []⟩ (runPartition { nodeFile := "nodes.xml" } (.ok planeNodes)).writes = (t, none) ∧
      ReadsBack (runPartition { nodeFile := "nodes.xml" } (.ok planeNodes)).writes t.read ∧
      P.locate? [2, 40] = some leaf ∧
      runLookup "areas_nodes.xml" [2, 40] (t.read "areas_nodes.xml") = { printed := leaf.label ++ "\n" } := by
  have hname : PathText.fileName? "nodes.xml" = some "nodes.xml" := by decide +kernel
  have hpath : outputPath { nodeFile := "nodes.xml" } "areas_" = .ok "areas_nodes.xml" := by
    rw [outputPath, hname]
    exact congrArg Except.ok (by decide +kernel)
  have hempty : "areas_nodes.xml".isEmpty = false := by decide +kernel
  have hstart : "areas_nodes.xml".startsWith "/" = false := by decide +kernel
  have hnames : PathText.names "areas_nodes.xml" = ["areas_nodes.xml"] := by decide +kernel
  have hidle : PathText.isIdle "areas_nodes.xml" = false := by decide +kernel
  have hwrite (text : String) : FileTree.writeAll ⟨[], []⟩ [("areas_nodes.xml", text)] =
      (⟨[(["areas_nodes.xml"], text.toUTF8)], []⟩, none) := by
    have hfree : FileTree.find ⟨[], []⟩ "areas_nodes.xml" = .ok (.free ["areas_nodes.xml"]) := by
      simp [FileTree.find, hempty, hstart, hnames, FileTree.follow, hidle, FileTree.isDirectory]
    simp only [FileTree.writeAll, FileTree.write, hfree]
    rfl
  have hinside (bytes : ByteArray) : FileTree.find ⟨[(["areas_nodes.xml"], bytes)], []⟩ "areas_nodes.xml" ≠
      .ok .outside := by
    simp [FileTree.find, hempty, hstart, hnames, FileTree.follow, hidle]
  obtain ⟨points, hpoints, hdim, hin⟩ := readPoints_planeNodes
  have hv := Document.valid_of_readPoints hpoints
  obtain ⟨P, root, tree, hb, h⟩ : ∃ P root tree, Partition.buildWith roundRobin {} points = .ok P ∧ _ :=
    Partition.exists_holds hv (roundRobin_lt hv.1) hin
  have hf : P.FiniteCuts :=
    (h.wellFormed (h.sound (h.finite_of_fieldSize Partition.value_thousand_lt))).finiteCuts
  have hrun : runPartition { nodeFile := "nodes.xml" } (.ok planeNodes) =
      { writes := [("areas_nodes.xml", Document.writeAreas P.areas)] } := by
    have hbuild : Partition.build {} points = .ok P := hb
    simp only [runPartition, load, hpoints, Except.mapError, bind, Except.bind, hbuild, Response.also, areaFiles, hpath]
    rfl
  have hok : (runPartition { nodeFile := "nodes.xml" } (.ok planeNodes)).failure = none := by rw [hrun]
  obtain ⟨text, points', P', file, htext, hpoints', hb', hfile, -, hlookup⟩ := lookup_answers_locate rfl hok
  -- what the run has read, built and named is what was found above
  cases htext
  cases hpoints.symm.trans hpoints'
  cases Eq.trans (Eq.symm hb) hb'
  cases hpath.symm.trans hfile
  have hwritten := hwrite (Document.writeAreas P.areas)
  have hback := FileTree.readsBack_of_writeAll hwritten (by simp [hinside])
  rw [hrun] at hlookup ⊢
  have hlength : [2, 40].length = P.dimensions := by
    rw [Partition.dimensions, h.input, hdim]
    rfl
  obtain ⟨leaf, hleaf, hanswer⟩ := (hlookup hf _ hback [2, 40]).1 hlength (by decide +kernel)
  exact ⟨points, P, _, leaf, hpoints, hb, hf, rfl, hwritten, hback, hleaf, hanswer⟩

end Command

end Bisection
