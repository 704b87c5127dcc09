import CodeSurvey.CallGraph
import CodeSurvey.Proofs.Graph.Basic
import CodeSurvey.Proofs.SymbolTable

/-!
# The calls that are recorded

The walk over files, lines and tokens records a list of calls one after the other. Recording a call
adds it to the callees and to the graph alike, so both tell the same, and what they tell is that
list: the tokens on the lines of a function that mean another function.
-/
namespace CodeSurvey.CallGraph

/-- The functions that a function calls. -/
def calleesOf (g : CallGraph) (caller : String) : List String :=
  (g.callees.get? caller).getD []

/-- Records calls one after the other. -/
def addCalls (g : CallGraph) (calls : List (String × String)) : CallGraph :=
  calls.foldl (fun g call => g.addCall call.1 call.2) g

/-! ### Recording a call -/

theorem addCall_of_mem {g : CallGraph} {a b : String} (h : b ∈ g.calleesOf a) :
    g.addCall a b = g := by
  rw [addCall, if_pos]
  simpa [calleesOf] using h

theorem addCall_of_not_mem {g : CallGraph} {a b : String} (h : b ∉ g.calleesOf a) :
    g.addCall a b = { g with
      callees := g.callees.insert a (g.calleesOf a ++ [b]), graph := g.graph.addEdge a b } := by
  rw [addCall, if_neg]
  · rfl
  · simpa [calleesOf] using h

@[simp] theorem table_addCall (g : CallGraph) (a b : String) : (g.addCall a b).table = g.table := by
  rw [addCall]
  split <;> rfl

@[simp] theorem table_addCalls (g : CallGraph) (calls : List (String × String)) :
    (g.addCalls calls).table = g.table := by
  induction calls generalizing g with
  | nil => rfl
  | cons call calls ih => exact (ih _).trans (table_addCall g call.1 call.2)

/-- What is kept while calls are recorded among the functions `ids`. -/
structure Sound (ids : List String) (g : CallGraph) : Prop where
  sorted : g.callees.Sorted
  keys : ∀ id, id ∈ g.callees.keys ↔ id ∈ ids
  nodes : ∀ id, id ∈ g.graph.nodes ↔ id ∈ ids
  wellFormed : g.graph.WellFormed
  nodup : ∀ a, (g.calleesOf a).Nodup
  not_self : ∀ a, a ∉ g.calleesOf a
  edge_iff : ∀ a b, g.graph.Edge a b ↔ b ∈ g.calleesOf a
  edgeCount_eq : g.edgeCount = g.graph.edges.length

theorem calleesOf_insert {g : CallGraph} (a x : String) (bs : List String) (graph : Graph) :
    calleesOf { g with callees := g.callees.insert a bs, graph := graph } x =
      if x = a then bs else g.calleesOf x := by
  simp only [calleesOf, Table.get?_insert]
  split_ifs <;> rfl

theorem Sound.addCall {ids : List String} {g : CallGraph} (h : g.Sound ids) {a b : String}
    (ha : a ∈ ids) (hb : b ∈ ids) (hne : b ≠ a) : (g.addCall a b).Sound ids := by
  by_cases hmem : b ∈ g.calleesOf a
  · rwa [addCall_of_mem hmem]
  have hnew : ¬g.graph.Edge a b := fun hedge => hmem ((h.edge_iff a b).1 hedge)
  rw [addCall_of_not_mem hmem]
  refine ⟨h.sorted.insert _ _, ?_, ?_, h.wellFormed.addEdge a b, ?_, ?_, ?_, ?_⟩
  · intro id
    rw [Table.mem_keys_insert, h.keys]
    exact or_iff_right_of_imp fun hid => hid ▸ ha
  · intro id
    rw [Graph.mem_addEdge, h.nodes]
    refine or_iff_left_of_imp ?_
    rintro (rfl | rfl)
    · exact ha
    · exact hb
  · intro x
    rw [calleesOf_insert]
    split_ifs with hx
    · exact List.nodup_append'.2 ⟨h.nodup a, List.nodup_singleton b, by simpa using hmem⟩
    · exact h.nodup x
  · intro x
    rw [calleesOf_insert]
    split_ifs with hx
    · subst hx
      simpa using ⟨h.not_self x, Ne.symm hne⟩
    · exact h.not_self x
  · intro x y
    rw [calleesOf_insert, Graph.edge_iff, Graph.edges_addEdge hnew, List.mem_append,
      ← Graph.edge_iff, h.edge_iff]
    split_ifs with hx
    · subst hx
      simp
    · simp [hx]
  · have htotal := h.sorted.foldr_insert List.length a (g.calleesOf a ++ [b])
    have hold : (g.callees.get? a).elim 0 List.length = (g.calleesOf a).length := by
      rw [calleesOf]
      cases g.callees.get? a <;> rfl
    have hcount := h.edgeCount_eq
    simp only [edgeCount] at hcount ⊢
    rw [Graph.edges_addEdge hnew, List.length_append, List.length_singleton]
    rw [hold, List.length_append, List.length_singleton] at htotal
    omega

theorem Sound.addCalls {ids : List String} {g : CallGraph} (h : g.Sound ids)
    {calls : List (String × String)}
    (hcalls : ∀ call ∈ calls, call.1 ∈ ids ∧ call.2 ∈ ids ∧ call.2 ≠ call.1) :
    (g.addCalls calls).Sound ids := by
  induction calls generalizing g with
  | nil => exact h
  | cons call calls ih =>
    obtain ⟨hcall, hrest⟩ := List.forall_mem_cons.1 hcalls
    exact ih (h.addCall hcall.1 hcall.2.1 hcall.2.2) hrest

theorem mem_calleesOf_addCall {g : CallGraph} {a b x y : String} :
    y ∈ (g.addCall a b).calleesOf x ↔ y ∈ g.calleesOf x ∨ (x, y) = (a, b) := by
  rw [Prod.mk.injEq]
  by_cases hmem : b ∈ g.calleesOf a
  · rw [addCall_of_mem hmem]
    refine (or_iff_left_of_imp ?_).symm
    rintro ⟨rfl, rfl⟩
    exact hmem
  · rw [addCall_of_not_mem hmem, calleesOf_insert]
    split_ifs with hx
    · subst hx
      simp
    · simp [hx]

/-- The callees are those from before and those of the calls recorded. -/
theorem mem_calleesOf_addCalls {g : CallGraph} {calls : List (String × String)} {x y : String} :
    y ∈ (g.addCalls calls).calleesOf x ↔ y ∈ g.calleesOf x ∨ (x, y) ∈ calls := by
  induction calls generalizing g with
  | nil => simp [addCalls]
  | cons call calls ih =>
    have hcons : g.addCalls (call :: calls) = (g.addCall call.1 call.2).addCalls calls := rfl
    rw [hcons, ih, mem_calleesOf_addCall, List.mem_cons, or_assoc]

theorem addCalls_append (g : CallGraph) (calls more : List (String × String)) :
    g.addCalls (calls ++ more) = (g.addCalls calls).addCalls more :=
  List.foldl_append

theorem sorted_addCall {g : CallGraph} (h : g.callees.Sorted) (a b : String) :
    (g.addCall a b).callees.Sorted := by
  by_cases hmem : b ∈ g.calleesOf a
  · rwa [addCall_of_mem hmem]
  · rw [addCall_of_not_mem hmem]
    exact h.insert _ _

theorem sorted_addCalls {g : CallGraph} (h : g.callees.Sorted) (calls : List (String × String)) :
    (g.addCalls calls).callees.Sorted := by
  induction calls generalizing g with
  | nil => exact h
  | cons call calls ih => exact ih (sorted_addCall h call.1 call.2)

theorem mem_callees_iff {g : CallGraph} (h : g.callees.Sorted) {id : String} :
    (∃ e ∈ g.callees, id ∈ e.2) ↔ ∃ a, id ∈ g.calleesOf a := by
  constructor
  · rintro ⟨e, he, hid⟩
    refine ⟨e.1, ?_⟩
    rwa [calleesOf, h.mem_iff.1 he]
  · rintro ⟨a, hid⟩
    rw [calleesOf] at hid
    cases hfound : g.callees.get? a with
    | none => simp [hfound] at hid
    | some bs =>
      rw [hfound] at hid
      exact ⟨(a, bs), h.mem_iff.2 hfound, hid⟩

/-- What is called stays called when more calls are recorded. -/
theorem mem_callees_addCalls {g : CallGraph} (h : g.callees.Sorted) (calls : List (String × String))
    {id : String} (hid : ∃ e ∈ g.callees, id ∈ e.2) :
      ∃ e ∈ (g.addCalls calls).callees, id ∈ e.2 := by
  obtain ⟨a, ha⟩ := (mem_callees_iff h).1 hid
  exact (mem_callees_iff (sorted_addCalls h calls)).2 ⟨a, mem_calleesOf_addCalls.2 (.inl ha)⟩

/-! ### The functions before any call -/

theorem edgeCount_eq_zero {g : CallGraph} (h : ∀ e ∈ g.callees, e.2 = []) : g.edgeCount = 0 := by
  rw [edgeCount]
  generalize g.callees = t at h
  induction t with
  | nil => rfl
  | cons e t ih =>
    obtain ⟨he, ht⟩ := List.forall_mem_cons.1 h
    rw [List.foldr_cons, ih ht, he]
    rfl

theorem calleesOf_ofTable (table : SymbolTable) (files : List ExtractedFile) (a : String) :
    (ofTable table files).calleesOf a = [] := by
  rw [calleesOf, ofTable, Table.get?_ofList]
  cases hfound : List.lookup a _ with
  | none => rfl
  | some bs =>
    have hmem := Table.mem_of_lookup hfound
    simp only [List.mem_reverse, List.mem_map, Prod.mk.injEq] at hmem
    obtain ⟨id, -, -, hnil⟩ := hmem
    exact hnil.symm

theorem edges_ofTable (table : SymbolTable) (files : List ExtractedFile) :
    (ofTable table files).graph.edges = [] :=
  Graph.edges_foldl_addNode .empty _

theorem sound_ofTable (files : List ExtractedFile) :
    (ofTable (SymbolTable.ofFiles files) files).Sound (symbolIds files) where
  sorted := Table.sorted_ofList _
  keys id := by
    rw [ofTable, Table.mem_keys_ofList, ← SymbolTable.mem_flatMap_inFile, List.map_map]
    exact iff_of_eq (congrArg (id ∈ ·) (List.map_id _))
  nodes id := by
    rw [ofTable, Graph.mem_foldl_addNode, ← SymbolTable.mem_flatMap_inFile]
    exact or_iff_right List.not_mem_nil
  wellFormed := by
    have hadd := Graph.wellFormed_ofAdditions
      ((files.flatMap fun f => ((SymbolTable.ofFiles files).inFile f.path).map Definition.id).map
        .node)
    rwa [Graph.ofAdditions, List.foldl_map] at hadd
  nodup a := by simp [calleesOf_ofTable]
  not_self a := by simp [calleesOf_ofTable]
  edge_iff a b := by simp [calleesOf_ofTable, Graph.edge_iff, edges_ofTable]
  edgeCount_eq := by
    rw [edges_ofTable, List.length_nil]
    refine edgeCount_eq_zero ?_
    intro e he
    rcases Table.mem_foldl_insert he with he | he
    · obtain ⟨id, -, rfl⟩ := List.mem_map.1 he
      rfl
    · exact absurd he List.not_mem_nil

/-! ### The owners of lines -/

/-- The definition that owns each line of a file. -/
def ownersIn (table : SymbolTable) (language : Language) (f : ExtractedFile) :
    List (Option Definition) :=
  let lines := f.maskedLines language
  lineOwners (language.spanStyle.span? lines) lines.length (table.inFile f.path)

theorem mem_of_mem_paint {owners : List (Option Definition)} {x : Extent} {d : Definition}
    (h : some d ∈ paint owners x) : d = x.definition ∨ some d ∈ owners := by
  obtain ⟨p, hp, hd⟩ := List.mem_map.1 h
  dsimp only at hd
  split_ifs at hd
  · exact .inl (Option.some.inj hd).symm
  · exact .inr (hd ▸ List.fst_mem_of_mem_zipIdx hp)

theorem mem_of_mem_foldl_paint {xs : List Extent} {owners : List (Option Definition)}
    {d : Definition} (h : some d ∈ xs.foldl paint owners) :
      (∃ x ∈ xs, d = x.definition) ∨ some d ∈ owners := by
  induction xs generalizing owners with
  | nil => exact .inr h
  | cons x xs ih =>
    rcases ih h with ⟨y, hy, hd⟩ | h
    · exact .inl ⟨y, List.mem_cons_of_mem x hy, hd⟩
    · rcases mem_of_mem_paint h with hd | h
      · exact .inl ⟨x, List.mem_cons_self, hd⟩
      · exact .inr h

theorem mem_of_mem_lineOwners {spanOf : Nat → Option LineSpan} {lineCount : Nat}
    {ds : List Definition} {d : Definition} (h : some d ∈ lineOwners spanOf lineCount ds) :
      d ∈ ds := by
  rcases mem_of_mem_foldl_paint h with ⟨x, hx, rfl⟩ | h
  · rw [List.mem_mergeSort] at hx
    obtain ⟨d, hd, rfl⟩ := List.mem_map.1 hx
    exact (List.mem_filter.1 hd).1
  · exact absurd (List.eq_of_mem_replicate h) (Option.some_ne_none d)

/-! ### The calls in files -/

/-- The calls on a numbered line with its owner. -/
def lineCalls (table : SymbolTable) (stoplist : List String) (file : String) :
    (List Char × Option Definition) × Nat → List (String × String)
  | ((_, none), _) => []
  | ((line, some caller), i) =>
    ((callTokens line).filterMap (callee? table stoplist file caller i)).map fun callee =>
      (caller.id, callee)

/-- The calls in a file, in the order of the text. -/
def fileCalls (registry : Registry) (table : SymbolTable) (f : ExtractedFile) :
    List (String × String) :=
  match registry.forPath? f.path with
  | none => []
  | some r =>
    ((f.maskedLines r.language).zip (ownersIn table r.language f)).zipIdx.flatMap
      (lineCalls table r.language.stoplist f.path)

theorem addLine_eq (stoplist : List String) (file : String) (g : CallGraph)
    (entry : (List Char × Option Definition) × Nat) :
    addLine stoplist file g entry = g.addCalls (lineCalls g.table stoplist file entry) := by
  obtain ⟨⟨line, _ | caller⟩, i⟩ := entry
  · rfl
  · rw [lineCalls, addCalls, List.foldl_map]
    rfl

theorem foldl_addLine_eq (stoplist : List String) (file : String) (g : CallGraph)
    (entries : List ((List Char × Option Definition) × Nat)) :
    entries.foldl (addLine stoplist file) g =
      g.addCalls (entries.flatMap (lineCalls g.table stoplist file)) := by
  induction entries generalizing g with
  | nil => rfl
  | cons entry entries ih =>
    rw [List.foldl_cons, ih, addLine_eq, table_addCalls, List.flatMap_cons, addCalls_append]

/-- A call token on a line of the file that the function `a` owns means the other function `b`. -/
def Calls (registry : Registry) (table : SymbolTable) (f : ExtractedFile) (a b : String) : Prop :=
  ∃ r, registry.forPath? f.path = some r ∧
    ∃ (i : Nat) (line : List Char) (caller : Definition),
      (f.maskedLines r.language)[i]? = some line ∧
      (ownersIn table r.language f)[i]? = some (some caller) ∧
      caller.id = a ∧
      ∃ token ∈ callTokens line, token ∉ r.language.stoplist ∧
        ¬(i + 1 = caller.line ∧ token = caller.simpleName) ∧
        ∃ d, table.resolveCall? f.path caller token = some d ∧ d.id = b ∧ b ≠ a

theorem callee?_eq_some_iff {table : SymbolTable} {stoplist : List String} {file token b : String}
    {caller : Definition} {i : Nat} :
    callee? table stoplist file caller i token = some b ↔
      token ∉ stoplist ∧ ¬(i + 1 = caller.line ∧ token = caller.simpleName) ∧
        ∃ d, table.resolveCall? file caller token = some d ∧ d.id = b ∧ b ≠ caller.id := by
  rw [callee?]
  split_ifs with hskip
  · simp only [Bool.or_eq_true, List.contains_iff_mem, Bool.and_eq_true, beq_iff_eq] at hskip
    simp only [false_iff]
    rintro ⟨hstop, hown, -⟩
    exact hskip.elim hstop hown
  · simp only [Bool.or_eq_true, List.contains_iff_mem, Bool.and_eq_true, beq_iff_eq,
      not_or] at hskip
    simp only [Option.filter_eq_some_iff, Option.map_eq_some_iff, bne_iff_ne, hskip,
      not_false_eq_true, true_and, ← and_assoc, exists_and_right]

theorem mem_lineCalls {table : SymbolTable} {stoplist : List String} {file a b : String}
    {line : List Char} {owner : Option Definition} {i : Nat} :
    (a, b) ∈ lineCalls table stoplist file ((line, owner), i) ↔
      ∃ caller, owner = some caller ∧ caller.id = a ∧
        ∃ token ∈ callTokens line, callee? table stoplist file caller i token = some b := by
  cases owner with
  | none => simp [lineCalls]
  | some caller =>
    simp only [lineCalls, List.mem_map, List.mem_filterMap, Prod.mk.injEq, Option.some.injEq,
      exists_eq_left']
    constructor
    · rintro ⟨callee, htoken, rfl, rfl⟩
      exact ⟨rfl, htoken⟩
    · rintro ⟨rfl, htoken⟩
      exact ⟨b, htoken, rfl, rfl⟩

theorem mem_fileCalls {registry : Registry} {table : SymbolTable} {f : ExtractedFile}
    {a b : String} :
    (a, b) ∈ fileCalls registry table f ↔ Calls registry table f a b := by
  rw [fileCalls, Calls]
  cases registry.forPath? f.path with
  | none => simp
  | some r =>
    simp only [List.mem_flatMap, Option.some.injEq, exists_eq_left']
    constructor
    · rintro ⟨⟨⟨line, owner⟩, i⟩, hentry, hcall⟩
      have hat := List.getElem?_zip_eq_some.1 (List.mem_zipIdx_iff_getElem?.1 hentry)
      obtain ⟨caller, rfl, rfl, token, htoken, hb⟩ := mem_lineCalls.1 hcall
      exact ⟨i, line, caller, hat.1, hat.2, rfl, token, htoken, callee?_eq_some_iff.1 hb⟩
    · rintro ⟨i, line, caller, hline, howner, rfl, token, htoken, hb⟩
      refine ⟨((line, some caller), i), ?_, mem_lineCalls.2 ⟨caller, rfl, rfl, token, htoken, ?_⟩⟩
      · exact List.mem_zipIdx_iff_getElem?.2 (List.getElem?_zip_eq_some.2 ⟨hline, howner⟩)
      · exact callee?_eq_some_iff.2 hb

theorem Calls.caller_mem {registry : Registry} {table : SymbolTable} {f : ExtractedFile}
    {a b : String} (h : Calls registry table f a b) : ∃ d ∈ table.inFile f.path, d.id = a := by
  obtain ⟨r, -, i, line, caller, -, howner, ha, -⟩ := h
  exact ⟨caller, mem_of_mem_lineOwners (List.mem_of_getElem? howner), ha⟩

theorem Calls.mem_symbolIds {registry : Registry} {files : List ExtractedFile} {f : ExtractedFile}
    {a b : String} (h : Calls registry (.ofFiles files) f a b) :
      a ∈ symbolIds files ∧ b ∈ symbolIds files ∧ b ≠ a := by
  obtain ⟨caller, hcaller, hid⟩ := h.caller_mem
  obtain ⟨r, -, i, line, owner, -, -, -, token, -, -, -, d, hd, rfl, hne⟩ := h
  exact ⟨hid ▸ SymbolTable.id_mem_of_mem_inFile hcaller, SymbolTable.id_mem_of_resolveCall? hd, hne⟩

theorem addFile_eq (registry : Registry) (g : CallGraph) (f : ExtractedFile) :
    g.addFile registry f = g.addCalls (fileCalls registry g.table f) := by
  -- a file without functions is passed over, and then no line of it has an owner
  by_cases hds : g.table.inFile f.path = []
  · have hnone : fileCalls registry g.table f = [] := by
      refine List.eq_nil_iff_forall_not_mem.2 ?_
      intro call hcall
      obtain ⟨d, hd, -⟩ := (mem_fileCalls.1 hcall).caller_mem
      exact List.not_mem_nil (hds ▸ hd)
    rw [hnone, addFile]
    cases registry.forPath? f.path with
    | none => rfl
    | some r =>
      simp only [hds]
      rfl
  · rw [addFile, fileCalls]
    cases registry.forPath? f.path with
    | none => rfl
    | some r =>
      simp only [List.isEmpty_iff, if_neg hds]
      exact foldl_addLine_eq _ _ _ _

theorem foldl_addFile_eq (registry : Registry) (g : CallGraph) (files : List ExtractedFile) :
    files.foldl (addFile registry) g = g.addCalls (files.flatMap (fileCalls registry g.table)) := by
  induction files generalizing g with
  | nil => rfl
  | cons f files ih =>
    rw [List.foldl_cons, ih, addFile_eq, table_addCalls, List.flatMap_cons, addCalls_append]

theorem ofFiles_eq (registry : Registry) (files : List ExtractedFile) :
    ofFiles registry files = (ofTable (.ofFiles files) files).addCalls
      (files.flatMap (fileCalls registry (.ofFiles files))) :=
  foldl_addFile_eq registry (ofTable (.ofFiles files) files) files

@[simp] theorem table_ofFiles (registry : Registry) (files : List ExtractedFile) :
    (ofFiles registry files).table = .ofFiles files := by
  rw [ofFiles_eq, table_addCalls]
  rfl

theorem mem_calleesOf_ofFiles {registry : Registry} {files : List ExtractedFile} {a b : String} :
    b ∈ (ofFiles registry files).calleesOf a ↔
    ∃ f ∈ files, Calls registry (.ofFiles files) f a b := by
  rw [ofFiles_eq, mem_calleesOf_addCalls, calleesOf_ofTable, List.mem_flatMap,
    or_iff_right List.not_mem_nil]
  simp only [mem_fileCalls]

theorem sound_ofFiles (registry : Registry) (files : List ExtractedFile) :
    (ofFiles registry files).Sound (symbolIds files) := by
  rw [ofFiles_eq]
  refine (sound_ofTable files).addCalls ?_
  rintro ⟨a, b⟩ hcall
  obtain ⟨f, -, hcall⟩ := List.mem_flatMap.1 hcall
  exact (mem_fileCalls.1 hcall).mem_symbolIds

/-- The callees and the graph record the calls among the functions of the files, and nothing
else. -/
structure Exact (registry : Registry) (files : List ExtractedFile) (g : CallGraph) : Prop where
  keys_nodup : g.callees.keys.Nodup
  mem_keys : ∀ id, id ∈ g.callees.keys ↔
    ∃ f ∈ files, ∃ d ∈ f.functions, id = Definition.idOf f.path d.name
  nodes_nodup : g.graph.nodes.Nodup
  mem_nodes : ∀ id, id ∈ g.graph.nodes ↔ id ∈ g.callees.keys
  mem_callees : ∀ a b, b ∈ g.calleesOf a ↔ ∃ f ∈ files, Calls registry (.ofFiles files) f a b
  callees_nodup : ∀ a, (g.calleesOf a).Nodup
  callee_ne : ∀ a, ∀ b ∈ g.calleesOf a, b ≠ a
  callee_mem_keys : ∀ a, ∀ b ∈ g.calleesOf a, b ∈ g.callees.keys
  hasEdge_iff : ∀ a b, g.graph.hasEdge a b = true ↔ b ∈ g.calleesOf a
  edges_nodup : g.graph.edges.Nodup
  edgeCount_eq : g.edgeCount = g.graph.edges.length

theorem ofFiles_records_calls (registry : Registry) (files : List ExtractedFile) :
    Exact registry files (ofFiles registry files) := by
  have h := sound_ofFiles registry files
  exact {
    keys_nodup := h.sorted.nodup_keys
    mem_keys := fun id => (h.keys id).trans mem_symbolIds
    nodes_nodup := h.wellFormed.nodes_nodup
    mem_nodes := fun id => (h.nodes id).trans (h.keys id).symm
    mem_callees := fun a b => mem_calleesOf_ofFiles
    callees_nodup := h.nodup
    callee_ne := fun a b hb heq => h.not_self a (heq ▸ hb)
    callee_mem_keys := fun a b hb =>
      (h.keys b).2 ((h.nodes b).1 (h.wellFormed.target_mem ((h.edge_iff a b).2 hb)))
    hasEdge_iff := h.edge_iff
    edges_nodup := h.wellFormed.edges_nodup
    edgeCount_eq := h.edgeCount_eq }

end CodeSurvey.CallGraph
