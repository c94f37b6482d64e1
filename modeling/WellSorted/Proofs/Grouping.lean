import WellSorted.Proofs.ByteOrder
import WellSorted.Proofs.Silence
import WellSorted.Run.Execution

/-!
# Findings by file and node

A sink is a stable grouping of what was recorded in it. Recording a finding opens an entry for its
file, if there is none, and then adds to the entries of that file
(`FileEntry.insertFile_eq_map`); both keep the entries of a file in the order of first findings,
each with the findings at its node (`FileEntry.Grouped`). Hence counting the entries is counting
the findings, and a check that runs on any sink is judged by its own findings alone
(`Sink.groups_log`).
-/

namespace WellSorted

/-! ### The nodes of a log -/

namespace Node

/-- Whether two nodes are one. A node belongs to one file, and its id tells it from the others
there. -/
def Same (n m : Node) : Prop := n.fileName = m.fileName ∧ n.id = m.id

instance (n m : Node) : Decidable (n.Same m) := inferInstanceAs (Decidable (_ ∧ _))

theorem Same.refl (n : Node) : n.Same n := ⟨rfl, rfl⟩

theorem Same.symm {n m : Node} (h : n.Same m) : m.Same n := ⟨h.1.symm, h.2.symm⟩

theorem Same.trans {n m k : Node} (h : n.Same m) (h' : m.Same k) : n.Same k :=
  ⟨h.1.trans h'.1, h.2.trans h'.2⟩

/-- How many findings were recorded before the first one at a node. -/
def firstAt (log : List Finding) (n : Node) : Nat := log.findIdx (·.node.Same n)

variable {log : List Finding} {f : Finding} {n m : Node}

theorem Same.firstAt_eq (h : n.Same m) : n.firstAt log = m.firstAt log := by
  rw [firstAt, firstAt]
  congr 1
  funext f
  rw [decide_eq_decide]
  exact ⟨fun hf => hf.trans h, fun hf => hf.trans h.symm⟩

theorem firstAt_lt_length (h : ∃ g ∈ log, g.node.Same n) : n.firstAt log < log.length := by
  refine List.findIdx_lt_length_of_exists ?_
  simpa using h

theorem firstAt_concat (h : ∃ g ∈ log, g.node.Same n) : n.firstAt (log ++ [f]) = n.firstAt log := by
  have hlt := firstAt_lt_length h
  rw [firstAt] at hlt ⊢
  rw [List.findIdx_append, if_pos hlt, firstAt]

theorem firstAt_concat_self (h : ∀ g ∈ log, ¬ g.node.Same f.node) :
    f.node.firstAt (log ++ [f]) = log.length := by
  have hlength : log.findIdx (·.node.Same f.node) = log.length :=
    List.findIdx_eq_length.mpr (by simpa using h)
  rw [firstAt, List.findIdx_append, hlength, if_neg (Nat.lt_irrefl _)]
  simp [List.findIdx_cons, Same.refl]

end Node

/-- A further finding belongs to its own node only. -/
theorem filter_concat (log : List Finding) (f : Finding) (n : Node) :
    (log ++ [f]).filter (·.node.Same n) =
      log.filter (·.node.Same n) ++ if f.node.Same n then [f] else [] := by
  rw [List.filter_append, List.filter_cons, List.filter_nil]
  simp

/-- Whether nodes are those of a file that have findings in a log, in the order of the first
ones. -/
structure Lists (file : String) (log : List Finding) (nodes : List Node) : Prop where
  ofFile : ∀ n ∈ nodes, n.fileName = file
  recorded : ∀ n ∈ nodes, ∃ f ∈ log, f.node = n
  listed : ∀ f ∈ log, f.node.fileName = file → ∃ n ∈ nodes, n.Same f.node
  ordered : nodes.Pairwise fun n m => n.firstAt log < m.firstAt log

namespace Lists

variable {file : String} {log : List Finding} {nodes : List Node} {f : Finding}

theorem nil (h : ∀ f ∈ log, f.node.fileName ≠ file) : Lists file log [] :=
  ⟨fun _ h => absurd h List.not_mem_nil, fun _ h => absurd h List.not_mem_nil,
    fun f hf hfile => absurd hfile (h f hf), .nil⟩

theorem distinct (h : Lists file log nodes) : nodes.Pairwise fun n m => ¬ n.Same m :=
  h.ordered.imp fun hlt hsame => hlt.ne hsame.firstAt_eq

theorem exists_same (h : Lists file log nodes) {n : Node} (hn : n ∈ nodes) :
    ∃ f ∈ log, f.node.Same n := by
  obtain ⟨f, hf, rfl⟩ := h.recorded n hn
  exact ⟨f, hf, .refl _⟩

/-- The log has nothing on a node that is not listed. -/
theorem not_same (h : Lists file log nodes) (hfile : f.node.fileName = file)
    (hf : ∀ n ∈ nodes, ¬ n.Same f.node) : ∀ g ∈ log, ¬ g.node.Same f.node := by
  intro g hg hsame
  obtain ⟨n, hn, hsame'⟩ := h.listed g hg (hsame.1.trans hfile)
  exact hf n hn (hsame'.trans hsame)

theorem ordered_concat (h : Lists file log nodes) (f : Finding) :
    nodes.Pairwise fun n m => n.firstAt (log ++ [f]) < m.firstAt (log ++ [f]) := by
  refine h.ordered.imp_of_mem fun {n m} hn hm hlt => ?_
  rwa [Node.firstAt_concat (h.exists_same hn), Node.firstAt_concat (h.exists_same hm)]

/-- A finding at a node of another file, or at one that is listed. -/
theorem concat_old (h : Lists file log nodes)
    (hf : f.node.fileName = file → ∃ n ∈ nodes, n.Same f.node) : Lists file (log ++ [f]) nodes where
  ofFile := h.ofFile
  recorded n hn := by
    obtain ⟨g, hg, hnode⟩ := h.recorded n hn
    exact ⟨g, List.mem_append_left _ hg, hnode⟩
  listed g hg hfile := by
    rcases List.mem_append.mp hg with hg | hg
    · exact h.listed g hg hfile
    · cases List.mem_singleton.mp hg
      exact hf hfile
  ordered := h.ordered_concat f

/-- The first finding at a node. -/
theorem concat_new (h : Lists file log nodes) (hfile : f.node.fileName = file)
    (hf : ∀ n ∈ nodes, ¬ n.Same f.node) : Lists file (log ++ [f]) (nodes ++ [f.node]) where
  ofFile := List.forall_mem_append.mpr ⟨h.ofFile, by simpa using hfile⟩
  recorded n hn := by
    rcases List.mem_append.mp hn with hn | hn
    · obtain ⟨g, hg, hnode⟩ := h.recorded n hn
      exact ⟨g, List.mem_append_left _ hg, hnode⟩
    · exact ⟨f, by simp, (List.mem_singleton.mp hn).symm⟩
  listed g hg hgfile := by
    rcases List.mem_append.mp hg with hg | hg
    · obtain ⟨n, hn, hsame⟩ := h.listed g hg hgfile
      exact ⟨n, List.mem_append_left _ hn, hsame⟩
    · cases List.mem_singleton.mp hg
      exact ⟨f.node, by simp, .refl _⟩
  ordered := by
    refine List.pairwise_append.mpr ⟨h.ordered_concat f, List.pairwise_singleton _ _, ?_⟩
    intro n hn m hm
    cases List.mem_singleton.mp hm
    have hrecorded := h.exists_same hn
    rw [Node.firstAt_concat hrecorded, Node.firstAt_concat_self (h.not_same hfile hf)]
    exact Node.firstAt_lt_length hrecorded

end Lists

/-! ### The entries of a file -/

namespace NodeEntry

/-- Whether entries hold what a log has on a file. -/
structure Grouped (file : String) (log : List Finding) (es : List NodeEntry) : Prop where
  lists : Lists file log (es.map (·.node))
  findings : ∀ e ∈ es, e.findings = log.filter (·.node.Same e.node)

/-- Add a finding to the entry of its node. -/
def extend (f : Finding) (e : NodeEntry) : NodeEntry :=
  if e.node.id = f.node.id then ⟨e.node, e.findings ++ [f]⟩ else e

@[simp] theorem node_extend (f : Finding) (e : NodeEntry) : (e.extend f).node = e.node := by
  unfold extend
  split <;> rfl

theorem findings_extend (f : Finding) (e : NodeEntry) :
    (e.extend f).findings = e.findings ++ if e.node.id = f.node.id then [f] else [] := by
  unfold extend
  split <;> simp

/-- Entering a finding at a node that has an entry. -/
theorem insertNode_of_mem {f : Finding} {es : List NodeEntry}
    (hdistinct : es.Pairwise fun e e' => e.node.id ≠ e'.node.id)
    (h : ∃ e ∈ es, e.node.id = f.node.id) : FileEntry.insertNode f es = es.map (extend f) := by
  induction es with
  | nil =>
    obtain ⟨e, he, -⟩ := h
    cases he
  | cons e es ih =>
    obtain ⟨hhead, htail⟩ := List.pairwise_cons.mp hdistinct
    rw [FileEntry.insertNode, List.map_cons]
    split
    · next hid =>
      -- No other entry has this id, so that all others stay as they are.
      have hrest : es.map (extend f) = es.map id := by
        refine List.map_congr_left fun e' he' => ?_
        exact if_neg fun hid' => hhead e' he' (hid.trans hid'.symm)
      rw [hrest, List.map_id, extend, if_pos hid]
    · next hid =>
      rw [ih htail, extend, if_neg hid]
      obtain ⟨e', he', hid'⟩ := h
      rcases List.mem_cons.mp he' with rfl | he'
      · exact absurd hid' hid
      · exact ⟨e', he', hid'⟩

theorem insertNode_of_not_mem {f : Finding} {es : List NodeEntry}
    (h : ∀ e ∈ es, e.node.id ≠ f.node.id) :
    FileEntry.insertNode f es = es ++ [⟨f.node, [f]⟩] := by
  induction es with
  | nil => rfl
  | cons e es ih =>
    obtain ⟨hhead, htail⟩ := List.forall_mem_cons.mp h
    rw [FileEntry.insertNode, if_neg hhead, ih htail, List.cons_append]

namespace Grouped

variable {file : String} {log : List Finding} {es : List NodeEntry} {f : Finding}

theorem nil (h : ∀ f ∈ log, f.node.fileName ≠ file) : Grouped file log [] :=
  ⟨Lists.nil h, fun _ h => absurd h List.not_mem_nil⟩

theorem fileName_eq (h : Grouped file log es) {e : NodeEntry} (he : e ∈ es) :
    e.node.fileName = file :=
  h.lists.ofFile _ (List.mem_map_of_mem he)

/-- Nodes of one file are told apart by their ids. -/
theorem same_iff (h : Grouped file log es) (hfile : f.node.fileName = file) {e : NodeEntry}
    (he : e ∈ es) : e.node.Same f.node ↔ e.node.id = f.node.id :=
  and_iff_right ((h.fileName_eq he).trans hfile.symm)

theorem ids_distinct (h : Grouped file log es) :
    es.Pairwise fun e e' => e.node.id ≠ e'.node.id := by
  refine (List.pairwise_map.mp h.lists.distinct).imp_of_mem fun {e e'} he he' hdistinct hid => ?_
  exact hdistinct ⟨(h.fileName_eq he).trans (h.fileName_eq he').symm, hid⟩

/-- A finding in another file. -/
theorem concat_other (h : Grouped file log es) (hfile : f.node.fileName ≠ file) :
    Grouped file (log ++ [f]) es := by
  refine ⟨h.lists.concat_old fun e => absurd e hfile, fun e he => ?_⟩
  have hother : ¬ f.node.Same e.node := fun hsame =>
    hfile (hsame.1.trans (h.fileName_eq he))
  rw [filter_concat, if_neg hother, List.append_nil, h.findings e he]

/-- One step of recording within a file. -/
theorem insertNode (h : Grouped file log es) (hfile : f.node.fileName = file) :
    Grouped file (log ++ [f]) (FileEntry.insertNode f es) := by
  by_cases hlisted : ∃ e ∈ es, e.node.id = f.node.id
  · rw [insertNode_of_mem h.ids_distinct hlisted]
    obtain ⟨e, he, hid⟩ := hlisted
    refine ⟨?_, List.forall_mem_map.mpr fun e he => ?_⟩
    · have hnodes : (es.map (extend f)).map (·.node) = es.map (·.node) := by simp
      rw [hnodes]
      exact h.lists.concat_old fun _ =>
        ⟨e.node, List.mem_map_of_mem he, (h.same_iff hfile he).mpr hid⟩
    · have hsame : f.node.Same e.node ↔ e.node.id = f.node.id :=
        ⟨fun hs => hs.2.symm, fun hid => ((h.same_iff hfile he).mpr hid).symm⟩
      rw [findings_extend, node_extend, filter_concat, h.findings e he]
      simp only [hsame]
  · have hnew (e : NodeEntry) (he : e ∈ es) : e.node.id ≠ f.node.id := fun hid =>
      hlisted ⟨e, he, hid⟩
    have hother (e : NodeEntry) (he : e ∈ es) : ¬ e.node.Same f.node := fun hsame =>
      hnew e he hsame.2
    rw [insertNode_of_not_mem hnew]
    refine ⟨?_, List.forall_mem_append.mpr ⟨fun e he => ?_, ?_⟩⟩
    · rw [List.map_append]
      exact h.lists.concat_new hfile (List.forall_mem_map.mpr hother)
    · rw [filter_concat, if_neg fun hsame => hother e he hsame.symm, List.append_nil,
        h.findings e he]
    · intro e he
      cases List.mem_singleton.mp he
      have hnone : log.filter (·.node.Same f.node) = [] := by
        refine List.filter_eq_nil_iff.mpr fun g hg hsame => ?_
        rw [decide_eq_true_iff] at hsame
        exact h.lists.not_same hfile (List.forall_mem_map.mpr hother) g hg hsame
      rw [filter_concat, hnone, if_pos (.refl _)]
      rfl

end Grouped

end NodeEntry

/-! ### The files of a sink -/

namespace FileEntry

/-- Whether files and their entries hold what a log has. -/
structure Grouped (log : List Finding) (files : List FileEntry) : Prop where
  sorted : files.Pairwise (·.file < ·.file)
  listed : ∀ f ∈ log, ∃ e ∈ files, e.file = f.node.fileName
  entries : ∀ e ∈ files, NodeEntry.Grouped e.file log e.entries

/-- Add a finding to the entries of its file. -/
def extend (f : Finding) (e : FileEntry) : FileEntry :=
  if e.file = f.node.fileName then ⟨e.file, insertNode f e.entries⟩ else e

@[simp] theorem file_extend (f : Finding) (e : FileEntry) : (e.extend f).file = e.file := by
  unfold extend
  split <;> rfl

theorem grouped_extend {log : List Finding} {e : FileEntry}
    (h : NodeEntry.Grouped e.file log e.entries) (f : Finding) :
    NodeEntry.Grouped e.file (log ++ [f]) (e.extend f).entries := by
  unfold extend
  split
  · next hfile => exact h.insertNode hfile.symm
  · next hfile => exact h.concat_other (Ne.symm hfile)

/-- The files with an entry for a further one, at its place, unless there is one already. -/
def openFile (file : String) : List FileEntry → List FileEntry
  | [] => [⟨file, []⟩]
  | e :: rest =>
    if file = e.file then e :: rest
    else if file < e.file then ⟨file, []⟩ :: e :: rest
    else e :: openFile file rest

section

variable {file : String} {files : List FileEntry}

theorem mem_openFile (hsorted : files.Pairwise (·.file < ·.file)) {e : FileEntry} :
    e ∈ openFile file files ↔ e ∈ files ∨ e = ⟨file, []⟩ ∧ ∀ e' ∈ files, e'.file ≠ file := by
  induction files with
  | nil => simp [openFile]
  | cons first rest ih =>
    obtain ⟨hfirst, hrest⟩ := List.pairwise_cons.mp hsorted
    rw [openFile]
    split
    · next heq => simp [heq]
    split
    · next hne hlt =>
      have hall (e' : FileEntry) (he' : e' ∈ first :: rest) : e'.file ≠ file := by
        rcases List.mem_cons.mp he' with rfl | he'
        · exact Ne.symm hne
        · exact (hlt.trans (hfirst e' he')).ne'
      rw [List.mem_cons, or_comm, and_iff_left hall]
    · next hne hge =>
      rw [List.mem_cons, ih hrest, List.mem_cons, List.forall_mem_cons, and_iff_right (Ne.symm hne),
        or_assoc]

theorem exists_mem_openFile (file : String) (files : List FileEntry) :
    ∃ e ∈ openFile file files, e.file = file := by
  induction files with
  | nil => exact ⟨⟨file, []⟩, List.mem_singleton_self _, rfl⟩
  | cons first rest ih =>
    rw [openFile]
    split
    · next heq => exact ⟨first, List.mem_cons_self, heq.symm⟩
    split
    · exact ⟨⟨file, []⟩, List.mem_cons_self, rfl⟩
    · obtain ⟨e, he, hfile⟩ := ih
      exact ⟨e, List.mem_cons_of_mem _ he, hfile⟩

theorem sorted_openFile (hsorted : files.Pairwise (·.file < ·.file)) :
    (openFile file files).Pairwise (·.file < ·.file) := by
  induction files with
  | nil => exact List.pairwise_singleton _ _
  | cons first rest ih =>
    obtain ⟨hfirst, hrest⟩ := List.pairwise_cons.mp hsorted
    rw [openFile]
    split
    · exact hsorted
    split
    · next hlt =>
      refine List.pairwise_cons.mpr ⟨List.forall_mem_cons.mpr ⟨hlt, fun e he => ?_⟩, hsorted⟩
      exact hlt.trans (hfirst e he)
    · next hne hge =>
      refine List.pairwise_cons.mpr ⟨fun e he => ?_, ih hrest⟩
      rcases (mem_openFile hrest).mp he with he | ⟨rfl, -⟩
      · exact hfirst e he
      · exact lt_of_le_of_ne (not_lt.mp hge) (Ne.symm hne)

/-- Recording a finding opens its file and adds to the entries there. -/
theorem insertFile_eq_map (f : Finding) (hsorted : files.Pairwise (·.file < ·.file)) :
    insertFile f files = (openFile f.node.fileName files).map (extend f) := by
  have hothers {rest : List FileEntry} (h : ∀ e ∈ rest, f.node.fileName < e.file) :
      rest.map (extend f) = rest := by
    have hid : rest.map (extend f) = rest.map id :=
      List.map_congr_left fun e he => if_neg (h e he).ne'
    rw [hid, List.map_id]
  induction files with
  | nil => simp [insertFile, openFile, extend, insertNode]
  | cons first rest ih =>
    obtain ⟨hfirst, hrest⟩ := List.pairwise_cons.mp hsorted
    rw [insertFile, openFile]
    split
    · next heq =>
      rw [List.map_cons, hothers fun e he => heq ▸ hfirst e he, extend, if_pos heq.symm]
    split
    · next hlt =>
      rw [List.map_cons, hothers (List.forall_mem_cons.mpr
        ⟨hlt, fun e he => hlt.trans (hfirst e he)⟩), extend, if_pos rfl]
      rfl
    · next hne _ => rw [List.map_cons, ih hrest, extend, if_neg (Ne.symm hne)]

end

/-- One step of recording. -/
theorem Grouped.insertFile {log : List Finding} {files : List FileEntry} (h : Grouped log files)
    (f : Finding) : Grouped (log ++ [f]) (insertFile f files) := by
  have hsorted := h.sorted
  rw [insertFile_eq_map f hsorted]
  refine ⟨?_, fun g hg => ?_, List.forall_mem_map.mpr fun e he => ?_⟩
  · rw [List.pairwise_map]
    simpa using sorted_openFile hsorted
  · have hopened : ∃ e ∈ openFile f.node.fileName files, e.file = g.node.fileName := by
      rcases List.mem_append.mp hg with hg | hg
      · obtain ⟨e, he, hfile⟩ := h.listed g hg
        exact ⟨e, (mem_openFile hsorted).mpr (.inl he), hfile⟩
      · cases List.mem_singleton.mp hg
        exact exists_mem_openFile _ files
    obtain ⟨e, he, hfile⟩ := hopened
    exact ⟨e.extend f, List.mem_map_of_mem he, (e.file_extend f).trans hfile⟩
  · rw [file_extend]
    refine grouped_extend ?_ f
    rcases (mem_openFile hsorted).mp he with he | ⟨rfl, hnone⟩
    · exact h.entries e he
    · refine NodeEntry.Grouped.nil fun g hg hfile => ?_
      obtain ⟨e, he, hfile'⟩ := h.listed g hg
      exact hnone e he (hfile'.trans hfile)

end FileEntry

namespace Sink

/-- What a report shows is what a sink holds. -/
theorem files_recordAll (s : Sink) (fs : List Finding) : (s.recordAll fs).files =
    fs.foldl (fun files f => FileEntry.insertFile f files) s.files := by
  induction fs generalizing s with
  | nil => rfl
  | cons f fs ih => exact ih (s.record f)

/-- A whole run of recording. -/
theorem grouped_recordAll (log : List Finding) :
    FileEntry.Grouped log (empty.recordAll log).files := by
  induction log using List.reverseRecOn with
  | nil =>
    show FileEntry.Grouped [] []
    exact ⟨.nil, fun _ h => absurd h List.not_mem_nil, fun _ h => absurd h List.not_mem_nil⟩
  | append_singleton log f ih =>
    rw [recordAll, List.foldl_append]
    exact ih.insertFile f

theorem foldl_add_length (es : List NodeEntry) (n : Nat) :
    es.foldl (fun n e => n + e.findings.length) n = n + (NodeEntry.records es).length := by
  induction es generalizing n with
  | nil => rfl
  | cons e es ih =>
    have hrecords : (NodeEntry.records (e :: es)).length =
        e.findings.length + (NodeEntry.records es).length := by
      simp [NodeEntry.records]
    rw [List.foldl_cons, ih, hrecords, Nat.add_assoc]

theorem errorCount_eq_length_records (s : Sink) :
    s.errorCount = (FileEntry.records s.files).length := by
  have hrecords : FileEntry.records s.files = NodeEntry.records s.entries :=
    List.flatMap_assoc.symm
  rw [hrecords, errorCount, foldl_add_length, Nat.zero_add]

theorem errorCount_record (s : Sink) (f : Finding) :
    (s.record f).errorCount = s.errorCount + 1 := by
  rw [errorCount_eq_length_records, errorCount_eq_length_records]
  exact (FileEntry.records_insertFile f s.files).2

theorem errorCount_recordAll (s : Sink) (fs : List Finding) :
    (s.recordAll fs).errorCount = s.errorCount + fs.length := by
  induction fs generalizing s with
  | nil => rfl
  | cons f fs ih =>
    have hrest := ih (s.record f)
    rw [errorCount_record] at hrest
    rw [List.length_cons, Nat.add_comm fs.length, ← Nat.add_assoc]
    exact hrest

theorem judge_recordAll (log fs : List Finding) :
    ((empty.recordAll log).judge fs).2 = empty.recordAll (log ++ fs) :=
  List.foldl_append.symm

/-- A check passes on any sink exactly if it finds nothing. -/
theorem judge_eq_true (s : Sink) (fs : List Finding) : (s.judge fs).1 = true ↔ fs = [] := by
  rw [judge, beq_iff_eq, errorCount_recordAll, Nat.add_eq_left, List.length_eq_zero_iff]

end Sink

/-! ### Stable grouping -/

/-- Whether a node stands before another one in a report: by the bytes of the file names, and within
a file by the first findings. -/
def Node.Precedes (log : List Finding) (n m : Node) : Prop :=
  Utf8.bytes n.fileName < Utf8.bytes m.fileName ∨
    n.fileName = m.fileName ∧ n.firstAt log < m.firstAt log

theorem Node.Precedes.not_same {log : List Finding} {n m : Node} (h : n.Precedes log m) :
    ¬ n.Same m := by
  rintro ⟨hfile, hid⟩
  rcases h with hlt | ⟨-, hlt⟩
  · rw [hfile] at hlt
    exact List.lt_irrefl _ hlt
  · exact hlt.ne (Same.firstAt_eq ⟨hfile, hid⟩)

/-- Whether entries are the stable grouping of a log. -/
structure Groups (log : List Finding) (es : List NodeEntry) : Prop where
  /-- Every node with a finding is listed once. -/
  once : ∀ f ∈ log, es.countP (·.node.Same f.node) = 1
  /-- No other node is listed. -/
  only : ∀ e ∈ es, ∃ f ∈ log, f.node = e.node
  ordered : es.Pairwise fun e e' => e.node.Precedes log e'.node
  /-- An entry has the findings at its node, in the order of the log. -/
  findings : ∀ e ∈ es, e.findings = log.filter (·.node.Same e.node)

theorem countP_same_eq_one {es : List NodeEntry}
    (hdistinct : es.Pairwise fun e e' => ¬ e.node.Same e'.node) {n : Node}
    (h : ∃ e ∈ es, e.node.Same n) : es.countP (·.node.Same n) = 1 := by
  induction es with
  | nil =>
    obtain ⟨e, he, -⟩ := h
    cases he
  | cons e es ih =>
    obtain ⟨hhead, htail⟩ := List.pairwise_cons.mp hdistinct
    by_cases hsame : e.node.Same n
    · rw [List.countP_cons_of_pos (by simpa using hsame), List.countP_eq_zero.mpr]
      intro e' he' hsame'
      exact hhead e' he' (hsame.trans (by simpa using hsame' : e'.node.Same n).symm)
    · rw [List.countP_cons_of_neg (by simpa using hsame)]
      obtain ⟨e', he', hsame'⟩ := h
      rcases List.mem_cons.mp he' with rfl | he'
      · exact absurd hsame' hsame
      · exact ih htail ⟨e', he', hsame'⟩

theorem FileEntry.Grouped.ordered {log : List Finding} {files : List FileEntry}
    (h : Grouped log files) :
    (files.flatMap (·.entries)).Pairwise fun e e' => e.node.Precedes log e'.node := by
  have hfile {e : FileEntry} (he : e ∈ files) {x : NodeEntry} (hx : x ∈ e.entries) :
      x.node.fileName = e.file :=
    (h.entries e he).fileName_eq hx
  refine List.pairwise_flatMap.mpr ⟨fun e he => ?_, ?_⟩
  · refine (List.pairwise_map.mp (h.entries e he).lists.ordered).imp_of_mem ?_
    intro x y hx hy hlt
    exact .inr ⟨(hfile he hx).trans (hfile he hy).symm, hlt⟩
  · refine h.sorted.imp_of_mem fun {e e'} he he' hlt x hx y hy => .inl ?_
    rw [hfile he hx, hfile he' hy]
    exact Utf8.bytes_lt_bytes hlt

theorem FileEntry.Grouped.groups {log : List Finding} {files : List FileEntry}
    (h : Grouped log files) : Groups log (files.flatMap (·.entries)) where
  once f hf := by
    refine countP_same_eq_one (h.ordered.imp fun hprecedes => hprecedes.not_same) ?_
    obtain ⟨e, he, hfile⟩ := h.listed f hf
    obtain ⟨n, hn, hsame⟩ := (h.entries e he).lists.listed f hf hfile.symm
    obtain ⟨x, hx, rfl⟩ := List.mem_map.mp hn
    exact ⟨x, List.mem_flatMap.mpr ⟨e, he, hx⟩, hsame⟩
  only x hx := by
    obtain ⟨e, he, hx⟩ := List.mem_flatMap.mp hx
    exact (h.entries e he).lists.recorded _ (List.mem_map_of_mem hx)
  ordered := h.ordered
  findings x hx := by
    obtain ⟨e, he, hx⟩ := List.mem_flatMap.mp hx
    exact (h.entries e he).findings x hx

/-- A sink is a stable grouping of the log of its findings, and the report shows it. It counts each
finding once. Both checks add their findings to the log. Their verdicts compare the counts before
and after; they tell whether anything was added, whatever the sink held before. -/
theorem Sink.groups_log (log : List Finding) :
    let sink := Sink.empty.recordAll log
    sink.errorCount = log.length ∧ Groups log sink.entries ∧ sink.entries = Report.entries log ∧
    (∀ p,
      let findings := SyntaxCheck.root p
      let verdict := SyntaxCheck.check sink p
      verdict.2 = Sink.empty.recordAll (log ++ findings) ∧ (verdict.1 = true ↔ findings = [])) ∧
    ∀ setup ctx p,
      let findings := (Check.root setup ctx p).findings
      let verdict := Check.check setup ctx sink p
      verdict.2.2 = Sink.empty.recordAll (log ++ findings) ∧
        (verdict.1 = true ↔ findings = []) := by
  intro sink
  refine ⟨?_, (grouped_recordAll log).groups, ?_,
    fun p => ⟨judge_recordAll log _, judge_eq_true sink _⟩,
    fun setup ctx p => ⟨judge_recordAll log _, judge_eq_true sink _⟩⟩
  · rw [errorCount_recordAll]
    exact Nat.zero_add _
  · rw [entries, files_recordAll]
    rfl

end WellSorted
