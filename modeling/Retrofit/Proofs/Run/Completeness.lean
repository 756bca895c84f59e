import Retrofit.Proofs.Run.Files

/-!
# What is left after a run

A run that does not end early writes one file for each input that is found, at the place of the name
that the written class has, and reports it; what was written stays unless a later class is written at
the same place. So where every class that can be decoded has the name under which it was asked for,
each found input has a file of its own. A class that is found under another name than its own takes
the place of the class of that name.
-/

namespace Retrofit

namespace Target

variable {t : Target} {maxFixedArity : Nat} {root : String}

/-- A class that is found under its own name is written to its own path. -/
theorem outputPath_eq {name : String} {found : List UInt8}
    (hown : ∀ u, ClassUnit.ofBytes found = .ok u →
      ClassName.internal u.name = ClassName.internal name) :
    t.outputPath maxFixedArity root name found = Path.ofClass root name := by
  have hname : ClassName.internal (t.produce maxFixedArity name found).name =
      ClassName.internal name := by
    cases hu : ClassUnit.ofBytes found with
    | ok u =>
        rw [produce_name hu]
        exact hown u hu
    | error e =>
        unfold produce
        rw [hu]
  unfold outputPath Path.ofClass
  rw [hname]

end Target

/-! ### Two classes in a directory -/

/-- A class with nothing but a name. -/
def marker (name : String) : ClassFile where
  minor := 0
  major := 53
  pool := { statedSize := 3, entries := #[.utf8 (bytesOfText name), .classInfo 1] }
  access := 1
  thisClass := 2
  superClass := 0
  interfaces := []
  fields := []
  methods := []
  attributes := []

theorem ofBytes_marker : ClassUnit.ofBytes (marker "X").bytes =
    .ok ⟨"X", marker "X", [], (marker "X").bytes, false⟩ := by
  cbv

/-- A directory with a class, and another class in a directory of its own. -/
def inbox (y : ClassFile) : Store :=
  ((((Store.empty []).put ["in"] .directory).put ["in", "X.class"] (.file (marker "X").bytes)).put
    ["in", "v9"] .directory).put ["in", "v9", "X.class"] (.file y.bytes)

def inboxPath : ClassPath := ⟨[.directory "in"]⟩

section

variable (y : ClassFile)

theorem item?_inbox (p : Place) : (inbox y).item? p =
    if p = [] ∨ p = ["in"] ∨ p = ["in", "v9"] then some .directory
    else if p = ["in", "X.class"] then some (.file (marker "X").bytes)
    else if p = ["in", "v9", "X.class"] then some (.file y.bytes)
    else none := by
  simp only [inbox, Store.item?_put (List.cons_ne_nil _ _), Store.item?_empty]
  grind

theorem tree_inbox : (inbox y).Tree := by
  refine ⟨fun p hp => ?_, rfl⟩
  rw [item?_inbox] at hp ⊢
  split at hp
  · rename_i hdirectory
    rcases hdirectory with rfl | rfl | rfl <;> rfl
  · split at hp
    · cases hp
    · split at hp <;> cases hp

/-- The names are short. -/
theorem utf8ByteSize_names : "in".utf8ByteSize = 2 ∧ "out".utf8ByteSize = 3 ∧ "v9".utf8ByteSize = 2 ∧
    "X.class".utf8ByteSize = 7 ∧ "java".utf8ByteSize = 4 :=
  ⟨rfl, rfl, rfl, rfl, rfl⟩

/-- Both classes are found as long as nothing is written among them. -/
theorem bytes?_inbox {changed : Place → Prop} {s : Store} (h : (inbox y).Keeps changed s)
    (hchanged : ∀ p, changed p → p.head? ≠ some "in") :
    inboxPath.bytes? s "X" = some (marker "X").bytes ∧ inboxPath.bytes? s "v9/X" = some y.bytes := by
  have hx : Path.below "in" (ClassPath.entryName "X") = "in/X.class" := by cbv
  have hy : Path.below "in" (ClassPath.entryName "v9/X") = "in/v9/X.class" := by cbv
  have hstartx : (inbox y).start "in/X.class" = .ok ([], ["in", "X.class"]) := rfl
  have hstarty : (inbox y).start "in/v9/X.class" = .ok ([], ["in", "v9", "X.class"]) := rfl
  have hreadx : s.read "in/X.class" = .ok (marker "X").bytes := by
    refine h.read ?_ fun hp => hchanged _ hp rfl
    simp [Store.read, Store.locate, hstartx, Store.walk, Store.step, item?_inbox, Store.nameLimit,
      utf8ByteSize_names, bind, Except.bind, pure, Except.pure]
  have hready : s.read "in/v9/X.class" = .ok y.bytes := by
    refine h.read ?_ fun hp => hchanged _ hp rfl
    simp [Store.read, Store.locate, hstarty, Store.walk, Store.step, item?_inbox, Store.nameLimit,
      utf8ByteSize_names, bind, Except.bind, pure, Except.pure]
  constructor
  · simp [ClassPath.bytes?, ClassPath.find?, inboxPath, ClassPath.search, Source.read?, hx, hreadx]
  · simp [ClassPath.bytes?, ClassPath.find?, inboxPath, ClassPath.search, Source.read?, hy, hready]

theorem found_inbox : inboxPath.bytes? (inbox y) "X" = some (marker "X").bytes ∧
    inboxPath.bytes? (inbox y) "v9/X" = some y.bytes :=
  bytes?_inbox y (.refl (fun _ => False) _) fun _ => False.elim

/-- The class whose calls are replaced is not there. -/
theorem bytes?_list_inbox : inboxPath.bytes? (inbox y) "java.util.List" = none := by
  have hlist : Path.below "in" (ClassPath.entryName "java.util.List") = "in/java/util/List.class" := by
    cbv
  have hstart : (inbox y).start "in/java/util/List.class" =
      .ok ([], ["in", "java", "util", "List.class"]) := rfl
  have hread : (inbox y).read "in/java/util/List.class" = .error .notFound := by
    simp [Store.read, Store.locate, hstart, Store.walk, Store.step, item?_inbox, Store.nameLimit,
      utf8ByteSize_names, bind, Except.bind]
  simp [ClassPath.bytes?, ClassPath.find?, inboxPath, ClassPath.search, Source.read?, hlist, hread]

end

/-- Names of classes that do not stand in the way of each other. -/
def outNames : List String := ["X", "v9/X", "Pair", "Brim"]

/-- Their files are in a directory of their own. -/
theorem place_outNames : ∀ name ∈ outNames,
    ((Store.empty []).placeOf (Path.ofClass "out" name)).head? = some "out" ∧
      (∀ p ∈ (Store.empty []).stops (Path.ofClass "out" name), p = [] ∨ p.head? = some "out") ∧
      ∀ name' ∈ outNames, (Store.empty []).placeOf (Path.ofClass "out" name) ∉
        (Store.empty []).stops (Path.ofClass "out" name') := by
  decide +kernel

theorem namesFile_outNames : ∀ name ∈ outNames, Store.NamesFile (Path.ofClass "out" name) := by
  have hnames : ∀ name ∈ outNames, '\x00' ∉ (Path.ofClass "out" name).toList ∧
      (Path.ofClass "out" name).utf8ByteSize ≤ Store.pathLimit ∧
      (∀ piece ∈ Store.pieces (Path.ofClass "out" name), piece.utf8ByteSize ≤ Store.nameLimit) ∧
      ∀ piece ∈ ["", ".", ".."], (Store.pieces (Path.ofClass "out" name)).getLast? ≠ some piece := by
    decide +kernel
  intro name hname
  obtain ⟨hnul, hlength, hlengths, hproper⟩ := hnames name hname
  exact ⟨hnul, hlength, hlengths, hproper⟩

/-- They can be written beside the two classes. -/
theorem exists_writeAll_inbox (y : ClassFile) {files : List (String × List UInt8)}
    (hfiles : ∀ path ∈ files.map Prod.fst, ∃ name ∈ outNames, path = Path.ofClass "out" name) :
    ∃ s', (inbox y).writeAll files = some s' := by
  have hitem (p : Place) (h : p.head? = some "out") : (inbox y).item? p = none := by
    rw [item?_inbox]
    rcases p with _ | ⟨first, rest⟩ <;> simp_all
  have hall : ∀ f ∈ files, ∃ name ∈ outNames, f.1 = Path.ofClass "out" name :=
    fun f hf => hfiles f.1 (List.mem_map_of_mem hf)
  rw [Store.exists_writeAll_iff (tree_inbox y)]
  constructor
  · intro f hf
    obtain ⟨name, hname, hpath⟩ := hall f hf
    obtain ⟨hplace, hstops, hapart⟩ := place_outNames name hname
    rw [hpath]
    refine ⟨namesFile_outNames name hname, fun p hp bytes => ?_, ?_, hapart name hname⟩
    · rcases hstops p hp with rfl | hp
      · exact nofun
      · rw [hitem p hp]
        exact nofun
    · exact fun hdirectory => by cases (hitem _ hplace).symm.trans hdirectory
  · refine List.pairwise_of_forall_mem_list fun f hf g hg => ?_
    obtain ⟨name, hname, hpath⟩ := hall f hf
    obtain ⟨name', hname', hpath'⟩ := hall g hg
    rw [hpath, hpath']
    exact ⟨(place_outNames name hname).2.2 name' hname', (place_outNames name' hname').2.2 name hname⟩

section

variable {y : ClassFile} {u : ClassUnit} {s : Settings} {inputs : List String}

/-- What is written for the two classes if the second one has such a name too. -/
theorem outputPath_inbox (hu : ClassUnit.ofBytes y.bytes = .ok u) (hname : u.name ∈ outNames)
    (hinputs : inputs ⊆ ["X", "v9/X"]) {name : String} (hmem : name ∈ inputs) {found : List UInt8}
    (hfound : inboxPath.bytes? (inbox y) name = some found) (t : Target) (maxFixedArity : Nat) :
    ∃ own ∈ outNames, t.outputPath maxFixedArity "out" name found = Path.ofClass "out" own := by
  rcases List.mem_pair.mp (hinputs hmem) with rfl | rfl
  · rw [(found_inbox y).1, Option.some_inj] at hfound
    subst hfound
    exact ⟨"X", by decide, congrArg (Path.ofClass "out") (Target.produce_name ofBytes_marker)⟩
  · rw [(found_inbox y).2, Option.some_inj] at hfound
    subst hfound
    exact ⟨u.name, hname, congrArg (Path.ofClass "out") (Target.produce_name hu)⟩

theorem files_inbox (hu : ClassUnit.ofBytes y.bytes = .ok u) (hname : u.name ∈ outNames)
    (hinputs : inputs ⊆ ["X", "v9/X"]) : ∃ s', (inbox y).writeAll ((s.target inboxPath (inbox y)).files
      s.maxFixedArity (inboxPath.bytes? (inbox y)) "out" inputs) = some s' := by
  refine exists_writeAll_inbox y fun path hpath => ?_
  obtain ⟨name, hmem, found, hfound, rfl⟩ := Target.mem_files.mp hpath
  rw [inboxPath.bytes?_internal] at hfound
  exact outputPath_inbox hu hname hinputs hmem hfound _ _

theorem kept_inbox (hu : ClassUnit.ofBytes y.bytes = .ok u) (hname : u.name ∈ outNames)
    (hinputs : inputs ⊆ ["X", "v9/X"]) (s' : Store)
    (h : (inbox y).Keeps ((s.target inboxPath (inbox y)).Written s.maxFixedArity
      (inboxPath.bytes? (inbox y)) "out" (inbox y) inputs) s') :
    ∀ name ∈ inputs, inboxPath.bytes? s' name = inboxPath.bytes? (inbox y) name := by
  obtain ⟨hx, hy⟩ := bytes?_inbox y h <| by
    intro p hp hin
    obtain ⟨name, hmem, found, hfound, hplace⟩ := hp
    rw [inboxPath.bytes?_internal] at hfound
    obtain ⟨own, hown, hpath⟩ := outputPath_inbox hu hname hinputs hmem hfound
      (s.target inboxPath (inbox y)) s.maxFixedArity
    have hout : ((inbox y).placeOf (Path.ofClass "out" own)).head? = some "out" :=
      (place_outNames own hown).1
    rw [hplace, hpath, hout] at hin
    exact absurd hin (by decide)
  intro name hmem
  rcases List.mem_pair.mp (hinputs hmem) with rfl | rfl
  · rw [hx, (found_inbox y).1]
  · rw [hy, (found_inbox y).2]

/-- A run over the two classes does not change what it finds. -/
theorem steady_inbox (hu : ClassUnit.ofBytes y.bytes = .ok u) (hname : u.name ∈ outNames) :
    Steady s inboxPath (inbox y) ["X", "v9/X"] "out" :=
  steady_of_files rfl (kept_inbox hu hname (List.Subset.refl _)) (files_inbox hu hname (List.Subset.refl _))

theorem run_inbox (hu : ClassUnit.ofBytes y.bytes = .ok u) (hname : u.name ∈ outNames)
    (hmethods : u.methods = []) : (run s inboxPath (inbox y) ["X", "v9/X"] "out").outcome = .ok
      ⟨[⟨"X", "out/X.class", [], false⟩, ⟨"v9/X", Path.ofClass "out" u.name, [], false⟩], []⟩ := by
  have hpath : Path.ofClass "out" "X" = "out/X.class" := by decide +kernel
  rw [run_of_files rfl (steady_inbox hu hname) (files_inbox hu hname (List.Subset.refl _)), List.map_cons,
    List.map_singleton, (found_inbox y).1, (found_inbox y).2, Target.outcome, Target.outcome,
    Target.produce_of_methods_nil ofBytes_marker rfl, Target.produce_of_methods_nil hu hmethods,
    Product.emitted, Product.emitted, hpath]
  rfl

end

/-! ### A file for each class -/

section

variable {s : Settings} {cp : ClassPath} {store : Store} {root : String} {inputs : List String}
  {report : Report}

/-- A run that does not end early reports each input that is found once, in order, and under the path
of the name that the written class has. If each class that can be decoded has the name under which it
was asked for, each of them has a file of its own at the path of this name, with the bytes produced for
it. -/
theorem run_writes_each_input (hrun : (run s cp store inputs root).outcome = .ok report)
    (hsteady : Steady s cp store inputs root) (hnamed : ∀ name ∈ inputs, Path.Named name)
    (hdistinct : (inputs.map ClassName.internal).Nodup) :
    report.emitted = (inputs.filterMap fun name => (cp.bytes? store name).map fun found =>
        ((s.target cp store).produce s.maxFixedArity name found).emitted root name) ∧
      ((∀ name ∈ inputs, ∀ found u, cp.bytes? store name = some found →
          ClassUnit.ofBytes found = .ok u →
            ClassName.internal u.name = ClassName.internal name) →
        (report.emitted.map fun e => store.placeOf e.path).Nodup ∧
          ∀ name ∈ inputs, ∀ found, cp.bytes? store name = some found →
            (run s cp store inputs root).store.read (Path.ofClass root name) =
              .ok ((s.target cp store).produce s.maxFixedArity name found).bytes) := by
  obtain ⟨hemitted, hreads⟩ := run_spec hrun hsteady
  refine ⟨hemitted, fun hown => ?_⟩
  have hpath : ∀ name ∈ inputs, ∀ found, cp.bytes? store name = some found →
      (s.target cp store).outputPath s.maxFixedArity root name found = Path.ofClass root name :=
    fun name hname found hfound =>
      Target.outputPath_eq fun u hu => hown name hname found u hfound hu
  constructor
  · rw [hemitted, List.Nodup, List.pairwise_map, List.pairwise_filterMap]
    refine List.Pairwise.imp_of_mem ?_ (List.pairwise_map.mp hdistinct)
    intro a b ha hb hne e he e' he' hplace
    obtain ⟨found, hfound, rfl⟩ := Option.map_eq_some_iff.mp he
    obtain ⟨found', hfound', rfl⟩ := Option.map_eq_some_iff.mp he'
    have hplaces : store.placeOf (Path.ofClass root a) = store.placeOf (Path.ofClass root b) := by
      rw [← hpath a ha found hfound, ← hpath b hb found' hfound']
      exact hplace
    exact hne (store.internal_eq_of_placeOf (hnamed a ha) (hnamed b hb) hplaces)
  · intro name hname found hfound
    obtain ⟨before, rest, rfl⟩ := List.append_of_mem hname
    rw [← hpath name hname found hfound]
    refine hreads before name rest found rfl hfound ?_
    rintro ⟨later, hlater, found', hfound', hplace⟩
    rw [cp.bytes?_internal] at hfound'
    have hmem : later ∈ before ++ name :: rest :=
      List.mem_append_right _ (List.mem_cons_of_mem _ hlater)
    rw [hpath name hname found hfound, hpath later hmem found' hfound'] at hplace
    have heq := store.internal_eq_of_placeOf (hnamed name hname) (hnamed later hmem) hplace
    rw [List.map_append, List.map_cons] at hdistinct
    have hnotin := (List.nodup_cons.mp (List.nodup_append.mp hdistinct).2.1).1
    exact hnotin (List.mem_map.mpr ⟨later, hlater, heq.symm⟩)

end

theorem ofBytes_nested : ClassUnit.ofBytes (marker "v9/X").bytes =
    .ok ⟨"v9/X", marker "v9/X", [], (marker "v9/X").bytes, false⟩ := by
  cbv

/-- Two classes are found under their own names, and each has its own file. -/
theorem run_writes_each_input_inbox :
    ∃ report, (run {} inboxPath (inbox (marker "v9/X")) ["X", "v9/X"] "out").outcome = .ok report ∧
      report.emitted.map Emitted.path = ["out/X.class", "out/v9/X.class"] ∧
      (run {} inboxPath (inbox (marker "v9/X")) ["X", "v9/X"] "out").store.read "out/X.class" =
        .ok (marker "X").bytes ∧
      (run {} inboxPath (inbox (marker "v9/X")) ["X", "v9/X"] "out").store.read "out/v9/X.class" =
        .ok (marker "v9/X").bytes := by
  have hrun := run_inbox (s := {}) ofBytes_nested (by decide) rfl
  have hx : ClassName.internal "X" = "X" := by decide +kernel
  have hy : ClassName.internal "v9/X" = "v9/X" := by decide +kernel
  have hpathx : Path.ofClass "out" "X" = "out/X.class" := by decide +kernel
  have hpathy : Path.ofClass "out" "v9/X" = "out/v9/X.class" := by decide +kernel
  have hnamed : ∀ name ∈ ["X", "v9/X"], Path.Named name := by
    unfold Path.Named
    decide +kernel
  obtain ⟨hfoundx, hfoundy⟩ := found_inbox (marker "v9/X")
  have hown : ∀ name ∈ ["X", "v9/X"], ∀ found u,
      inboxPath.bytes? (inbox (marker "v9/X")) name = some found → ClassUnit.ofBytes found = .ok u →
        ClassName.internal u.name = ClassName.internal name := by
    intro name hname found u hfind hu
    rcases List.mem_pair.mp hname with rfl | rfl
    · rw [hfoundx] at hfind
      cases hfind
      rw [ofBytes_marker] at hu
      cases hu
      rfl
    · rw [hfoundy] at hfind
      cases hfind
      rw [ofBytes_nested] at hu
      cases hu
      rfl
  obtain ⟨-, hfiles⟩ := run_writes_each_input hrun (steady_inbox ofBytes_nested (by decide)) hnamed
    (by simp [hx, hy])
  obtain ⟨-, hreads⟩ := hfiles hown
  have hreadx := hreads "X" (by simp) _ hfoundx
  have hready := hreads "v9/X" (by simp) _ hfoundy
  rw [hpathx, Target.produce_of_methods_nil ofBytes_marker rfl] at hreadx
  rw [hpathy, Target.produce_of_methods_nil ofBytes_nested rfl] at hready
  exact ⟨_, hrun, by simp [hpathy], hreadx, hready⟩

/-- A class that has the name of another one. -/
def impostor : ClassFile := { marker "X" with access := 0x21 }

theorem ofBytes_impostor : ClassUnit.ofBytes impostor.bytes =
    .ok ⟨"X", impostor, [], impostor.bytes, false⟩ := by
  cbv

/-- A class that is found under another name than its own takes the place of the class of that name,
and nothing is at the path of the name that was asked for. -/
theorem run_loses_input :
    ∃ report, (run {} inboxPath (inbox impostor) ["X", "v9/X"] "out").outcome = .ok report ∧
      report.emitted.map Emitted.path = ["out/X.class", "out/X.class"] ∧
      (run {} inboxPath (inbox impostor) ["X", "v9/X"] "out").store.read "out/X.class" =
        .ok impostor.bytes ∧
      impostor.bytes ≠ (marker "X").bytes ∧
      (run {} inboxPath (inbox impostor) ["X", "v9/X"] "out").store.read "out/v9/X.class" =
        .error .notFound := by
  have hrun := run_inbox (s := {}) ofBytes_impostor (by decide) rfl
  have hsteady := steady_inbox (s := {}) ofBytes_impostor (by decide)
  have hpath : Path.ofClass "out" "X" = "out/X.class" := by decide +kernel
  obtain ⟨hfoundx, hfoundy⟩ := found_inbox impostor
  refine ⟨_, hrun, by simp [hpath], ?_, by decide, ?_⟩
  · have hturn := run_turn hrun hsteady (show ["X", "v9/X"] = ["X"] ++ "v9/X" :: [] from rfl) hfoundy
    rw [Target.outputPath, Target.produce_of_methods_nil ofBytes_impostor rfl, hpath] at hturn
    exact hturn
  · obtain ⟨last, hlast⟩ := files_inbox (s := {}) ofBytes_impostor (by decide)
      (List.Subset.refl ["X", "v9/X"])
    have hitem := Store.item?_writeAll (tree_inbox impostor) hlast
    have hpaths : ((Settings.target {} inboxPath (inbox impostor)).files 10
        (inboxPath.bytes? (inbox impostor)) "out" ["X", "v9/X"]).map Prod.fst =
          ["out/X.class", "out/X.class"] := by
      simp [Target.files, inboxPath.bytes?_internal, hfoundx, hfoundy, Target.outputPath,
        Target.produce_of_methods_nil ofBytes_marker rfl,
        Target.produce_of_methods_nil ofBytes_impostor rfl, hpath]
    have hstops : (inbox impostor).stops "out/X.class" = [[], ["out"]] := by decide +kernel
    have hplace : (inbox impostor).placeOf "out/X.class" = ["out", "X.class"] := by decide +kernel
    have hout : last.item? ["out"] = some .directory := (hitem ["out"]).1 (by simp [hpaths, hstops])
    have hnested : last.item? ["out", "v9"] = none := by
      rw [(hitem ["out", "v9"]).2 (by simp [hpaths, hstops, hplace]), item?_inbox]
      rfl
    have hroot : last.item? [] = some .directory := rfl
    have hstart : last.start "out/v9/X.class" = .ok ([], ["out", "v9", "X.class"]) := by
      unfold Store.start
      rw [(Store.keeps_writeAll hlast).workingDirectory_eq]
      rfl
    rw [(run_eq (Or.inr rfl) hsteady).1, (Target.writeAll_files.mp hlast).1]
    simp [Store.read, Store.locate, hstart, Store.walk, Store.step, hroot, hout, hnested, Store.nameLimit,
      utf8ByteSize_names, bind, Except.bind]

end Retrofit
