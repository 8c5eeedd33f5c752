import VectorVrl.Proofs.Loading

namespace VectorVrl.Proofs.Lookup
open Lib.OrderedMap Lib.Index Loading

theorem cached_iff {t : FileTable} {key : IndexKey} {index : RowIndex} :
    t.cached key = some index ↔ t.indexes.poisoned = false ∧ t.indexes.inner[key]? = some index := by
  cases hp : t.indexes.poisoned <;> simp [FileTable.cached, Mutex.lock, hp]

theorem store_frame (t : FileTable) (key : IndexKey) (index : RowIndex) :
    (t.store key index).headers = t.headers ∧ (t.store key index).rows = t.rows ∧
      (t.store key index).path = t.path := by
  unfold FileTable.store
  split <;> exact ⟨rfl, rfl, rfl⟩

theorem store_poisoned (t : FileTable) (key : IndexKey) (index : RowIndex) :
    (t.store key index).indexes.poisoned = t.indexes.poisoned := by
  unfold FileTable.store
  split <;> rfl

theorem store_entry (t : FileTable) (key key' : IndexKey) (index : RowIndex) :
    (t.store key index).indexes.inner[key']? =
      if t.indexes.poisoned = false ∧ key = key' then some index
      else t.indexes.inner[key']? := by
  unfold FileTable.store
  cases hp : t.indexes.poisoned with
  | true => simp [Mutex.lock, hp]
  | false =>
    simp [Mutex.lock, hp, Std.ExtTreeMap.getElem?_insert]

theorem has_column_iff (t : FileTable) (field : String) :
    t.hasColumn field = true ↔ field ∈ t.headers := by
  simp [FileTable.hasColumn]

theorem all_columns_iff (t : FileTable) (fields : List String) :
    fields.all t.hasColumn = true ↔ ∀ field ∈ fields, field ∈ t.headers := by
  simp only [List.all_eq_true, has_column_iff]

theorem unknown_condition_iff (t : FileTable) (conditions : BTreeMap Value) :
    conditions.toList.find? (fun condition => condition.1 ∉ t.headers) = none ↔
      ∀ field ∈ conditions.keys, field ∈ t.headers := by
  rw [List.find?_eq_none, ← Std.ExtTreeMap.map_fst_toList_eq_keys, List.forall_mem_map]
  simp only [decide_not, Bool.not_eq_true', decide_eq_false_iff_not, not_not]

section
variable [Libraries]

theorem select_found (row : ObjectMap) (keys : List String) (out : ObjectMap)
    (h : ∀ key ∈ keys, row[key]?.isSome = true) :
    ∃ out', selectFields row keys out = .ok out' ∧
      ∀ k, out'[k]? = if k ∈ keys then row[k]? else out[k]? := by
  induction keys generalizing out with
  | nil => exact ⟨out, rfl, fun k => by simp⟩
  | cons key rest ih =>
    obtain ⟨value, hv⟩ := Option.isSome_iff_exists.mp (h key (List.mem_cons_self ..))
    obtain ⟨out', hout, hget⟩ := ih (out.insert key value)
      fun k hk => h k (List.mem_cons_of_mem key hk)
    refine ⟨out', by simp only [selectFields, hv, hout], ?_⟩
    intro k
    rw [hget]
    by_cases hk : k ∈ rest
    · simp [hk]
    · by_cases heq : key = k
      · subst heq
        simp [hk, hv]
      · have hne : k ≠ key := fun h => heq h.symm
        simp [hk, heq, hne, Std.ExtTreeMap.getElem?_insert]

theorem select_missing {row : ObjectMap} {keys : List String} {key : String} (out : ObjectMap)
    (h : keys.find? (fun key => row[key]?.isNone) = some key) :
    selectFields row keys out =
      .error s!"field {debugStr key} not found in enrichment table row" := by
  induction keys generalizing out with
  | nil => cases h
  | cons k rest ih =>
    cases hk : row[k]? with
    | none =>
      simp only [List.find?_cons, hk, Option.isNone_none, Option.some.injEq] at h
      subst h
      simp only [selectFields, hk]
    | some value =>
      simp only [List.find?_cons, hk, Option.isNone_some] at h
      simp only [selectFields, hk]
      exact ih _ h

/-- Selecting field by field is narrowing. -/
theorem apply_select_eq (row : ObjectMap) (select : Option (List String)) :
    applySelect row select = narrow select row := by
  cases select with
  | none => rfl
  | some keys =>
    simp only [applySelect, narrow]
    cases hf : keys.find? fun key => row[key]?.isNone with
    | some key => exact select_missing ∅ hf
    | none =>
      have hall : ∀ key ∈ keys, row[key]?.isSome = true := by
        intro key hkey
        have := List.find?_eq_none.mp hf key hkey
        simpa using this
      obtain ⟨out, hout, hget⟩ := select_found row keys ∅ hall
      rw [hout]
      congr 1
      apply Std.ExtTreeMap.ext_getElem?
      intro k
      rw [hget, Std.ExtTreeMap.getElem?_filter']
      by_cases hk : k ∈ keys
      · cases row[k]? <;> simp [hk, Option.filter]
      · cases row[k]? <;> simp [hk]

theorem cell_key_iff {row : ObjectMap} {caseSensitive : Bool} {field text : String}
    {value : Value} (h : comparableText field value = .ok text) :
    FileTable.cellKey row caseSensitive field = some (comparableKey text caseSensitive) ↔
      meets caseSensitive row (field, value) = true := by
  cases hrow : row[field]? with
  | none => simp [FileTable.cellKey, meets, hrow]
  | some cell =>
    cases hcell : comparableText field cell with
    | error e => simp [FileTable.cellKey, meets, hrow, hcell, sameText, Except.toOption]
    | ok other => simp [FileTable.cellKey, meets, hrow, hcell, h, sameText, Except.toOption]

/-- A row is indexed under the key of the conditions exactly when it meets each of them. -/
theorem row_key_iff {caseSensitive : Bool} {conditions : List (String × Value)}
    {key : List String} (row : ObjectMap)
    (h : collectAll (FileTable.conditionKey caseSensitive) conditions = .ok key) :
    FileTable.rowKey (caseSensitive, conditions.map Prod.fst) row = some key ↔
      rowMatches caseSensitive conditions row = true := by
  unfold FileTable.rowKey
  induction conditions generalizing key with
  | nil =>
    cases h
    simp [rowMatches]
  | cons condition rest ih =>
    obtain ⟨field, value⟩ := condition
    obtain ⟨b, bs, hb, hbs, rfl⟩ := collect_all_cons_ok.mp h
    cases ht : comparableText field value with
    | error e => simp [FileTable.conditionKey, ht, Except.map] at hb
    | ok text =>
      simp only [FileTable.conditionKey, ht, Except.map, Except.ok.injEq] at hb
      subst hb
      have hhead : FileTable.cellKey row caseSensitive field =
          some (comparableKey text caseSensitive) ↔ meets caseSensitive row (field, value) = true :=
        cell_key_iff ht
      have htail := ih hbs
      simp only [rowMatches, List.all_cons, Bool.and_eq_true] at htail ⊢
      rw [← hhead, ← htail, List.map_cons, List.mapM_cons]
      cases FileTable.cellKey row caseSensitive field with
      | none => simp
      | some c =>
        cases (rest.map Prod.fst).mapM (FileTable.cellKey row caseSensitive) with
        | none => simp
        | some cs => simp

/-- No usable cache entry differs from a fresh build. -/
def Coherent (t : FileTable) : Prop :=
  ∀ key index, t.cached key = some index → index = FileTable.buildIndex t.rows key

theorem store_coherent {t : FileTable} (h : Coherent t) (key : IndexKey) :
    Coherent (t.store key (FileTable.buildIndex t.rows key)) := by
  intro key' index hc
  obtain ⟨hclean, hget⟩ := cached_iff.mp hc
  rw [store_poisoned] at hclean
  rw [store_entry] at hget
  rw [(store_frame t key _).2.1]
  split at hget
  · rename_i hnew
    rw [← hnew.2]
    exact (Option.some.inj hget).symm
  · exact h key' index (cached_iff.mpr ⟨hclean, hget⟩)

theorem index_for_coherent {t : FileTable} (h : Coherent t) (caseSensitive : Bool)
    (fields : List String) : Coherent (t.indexFor caseSensitive fields).2 := by
  unfold FileTable.indexFor
  split
  · exact h
  · dsimp only
    split
    · exact h
    · exact store_coherent h _

/-- What `indexFor` returns depends on the headers and rows alone. -/
theorem index_for_eq {t : FileTable} (h : Coherent t) (caseSensitive : Bool)
    (fields : List String) :
    (t.indexFor caseSensitive fields).1 =
      if fields.all t.hasColumn then some (FileTable.buildIndex t.rows (caseSensitive, fields))
      else none := by
  unfold FileTable.indexFor
  cases ha : fields.all t.hasColumn with
  | false => simp
  | true =>
    simp only [Bool.not_true, Bool.false_eq_true, if_false, if_true]
    cases hc : t.cached (caseSensitive, fields) with
    | none => rfl
    | some index => rw [h _ _ hc]

theorem loaded_coherent {t : FileTable} (h : t.Loaded) : Coherent t := by
  induction h with
  | load h =>
    intro key index hc
    rw [cached_iff, load_cache h] at hc
    simp at hc
  | indexed caseSensitive fields _ ih => exact index_for_coherent ih caseSensitive fields
  | poisoned left _ _ =>
    intro key index hc
    have := (cached_iff.mp hc).1
    cases this

/-- Building an index leaves everything but the cache as it was. -/
theorem index_for_frame (t : FileTable) (caseSensitive : Bool) (fields : List String) :
    (t.indexFor caseSensitive fields).2.headers = t.headers ∧
      (t.indexFor caseSensitive fields).2.rows = t.rows ∧
      (t.indexFor caseSensitive fields).2.path = t.path := by
  unfold FileTable.indexFor
  split
  · exact ⟨rfl, rfl, rfl⟩
  · dsimp only
    split
    · exact ⟨rfl, rfl, rfl⟩
    · exact store_frame t _ _

theorem find_rows_frame {t u : FileTable} (hh : u.headers = t.headers) (hr : u.rows = t.rows)
    (index : Option RowIndex) (conditions : List (String × Value)) (caseSensitive : Bool)
    (select : Option (List String)) (wanted : Wanted) :
    u.findRows index conditions caseSensitive select wanted =
      t.findRows index conditions caseSensitive select wanted := by
  simp only [FileTable.findRows, FileTable.hasColumn, hh, hr]

theorem wanted_rows (wanted : Wanted) (rows : List ObjectMap) (key : IndexKey)
    (k : List String) :
    (wanted.take ((FileTable.buildIndex rows key)[k]?.getD [])).filterMap
        (fun number => rows[number]?) =
      wanted.take (rows.filter fun row => FileTable.rowKey key row = some k) := by
  cases wanted with
  | one => exact first_rows_of_key _ rows k 2
  | all => exact rows_of_key _ rows k

/-- With the index of its own fields a lookup on known columns scans the rows in order. -/
theorem find_rows_indexed (t : FileTable) (conditions : List (String × Value))
    (caseSensitive : Bool) (select : Option (List String)) (wanted : Wanted) :
    t.findRows (some (FileTable.buildIndex t.rows (caseSensitive, conditions.map Prod.fst)))
        conditions caseSensitive select wanted =
      match badCondition conditions with
      | some e => .error e
      | none => collectAll (narrow select)
          (wanted.take (t.rows.filter (rowMatches caseSensitive conditions))) := by
  have hspec := collect_all_spec (FileTable.conditionKey caseSensitive) conditions
  have hbad : (conditions.findSome? fun condition =>
      errorOf (FileTable.conditionKey caseSensitive condition)) = badCondition conditions := by
    unfold badCondition
    congr 1
    funext condition
    obtain ⟨field, value⟩ := condition
    cases h : comparableText field value <;> simp [FileTable.conditionKey, h, Except.map, errorOf]
  rw [hbad] at hspec
  simp only [FileTable.findRows]
  cases hb : badCondition conditions with
  | some e =>
    rw [hb] at hspec
    rw [hspec]
    rfl
  | none =>
    rw [hb] at hspec
    obtain ⟨key, hkey⟩ := hspec
    rw [hkey]
    simp only [bind, Except.bind, wanted_rows]
    have hfilter : (t.rows.filter fun row =>
        FileTable.rowKey (caseSensitive, conditions.map Prod.fst) row = some key) =
        t.rows.filter (rowMatches caseSensitive conditions) := by
      apply List.filter_congr
      intro row _
      rw [Bool.eq_iff_iff, decide_eq_true_iff]
      exact row_key_iff row hkey
    rw [hfilter]
    exact collect_all_congr fun row _ => apply_select_eq row select

/-- Without an index a lookup names the first field that is no column. -/
theorem find_rows_unindexed {t : FileTable} {conditions : List (String × Value)}
    {condition : String × Value}
    (hf : conditions.find? (fun condition => condition.1 ∉ t.headers) = some condition)
    (caseSensitive : Bool) (select : Option (List String)) (wanted : Wanted) :
    t.findRows none conditions caseSensitive select wanted =
      if t.rows = [] then .ok []
      else .error s!"field {debugStr condition.1} not found in enrichment table" := by
  have hfind : (conditions.find? fun condition => !t.hasColumn condition.1) = some condition := by
    rw [← hf]
    congr 1
    funext other
    rw [Bool.eq_iff_iff, Bool.not_eq_true', decide_eq_true_iff, ← has_column_iff,
      Bool.not_eq_true]
  simp only [FileTable.findRows, hfind]
  cases hr : t.rows <;> simp

/-- Where every condition names a column the scan comes down to the matching rows. -/
theorem plain_scan_known {t : FileTable} {conditions : List (String × Value)}
    (hnone : conditions.find? (fun condition => condition.1 ∉ t.headers) = none)
    (caseSensitive : Bool) (select : Option (List String)) (wanted : Wanted) :
    plainScan t conditions caseSensitive select wanted =
      match badCondition conditions with
      | some e => .error e
      | none => collectAll (narrow select)
        (wanted.take (t.rows.filter (rowMatches caseSensitive conditions))) := by
  unfold plainScan
  split
  · rename_i hsome
    rw [hnone] at hsome
    cases hsome
  · rfl

end

/-- A disk with one CSV file. -/
def usersDisk : Files where
  openCsv path _ :=
    if path = "users.csv" then
      .ok ⟨.ok ["id", "name"], [.ok ["1", "Bob"], .ok ["2", "Ann"], .ok ["3", "BOB"]]⟩
    else .error "No such file or directory"
  openMmdb _ := .error "No such file or directory"

def userRow (id name : String) : ObjectMap :=
  ((∅ : ObjectMap).insert "id" (.ofStr id)).insert "name" (.ofStr name)

def usersTable : FileTable :=
  ⟨"users.csv", ["id", "name"], [userRow "1" "Bob", userRow "2" "Ann", userRow "3" "BOB"],
    ⟨false, ∅⟩⟩

theorem load_users : FileTable.load usersDisk "users.csv" 44 = .ok usersTable := rfl

def namedBob : BTreeMap Value := (∅ : BTreeMap Value).insert "name" (.ofStr "bob")

section
local instance : Libraries := asciiLibraries

example : (plainScan usersTable namedBob.toList false none .all).map List.length = .ok 2 := by
  decide +kernel

end

end VectorVrl.Proofs.Lookup
