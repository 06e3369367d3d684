import Nkit.Table.Compare
import Nkit.Base.Renumber

/-! Tables and their indices (`dynamic_table.cpp`, `table_storage_impl.h`).  `none` is a
failed assertion or a write outside an object; every other outcome is the returned flag
with the new reference counts and the new table.  `now` is the clock, read once for each
`DATE_TIME` column that gets its default. -/

namespace Nkit
open OrderedMap Renumber

/-- All cells, row after row; `growFactor` is the width of a row. -/
structure StorageImpl where
  growFactor : ℕ
  array : List Data
deriving DecidableEq, Repr

namespace StorageImpl

def offsetToPos (s : StorageImpl) (offset : ℕ) : ℕ := offset * s.growFactor

/-- The cells from the pointer `get` returns on. -/
def get (s : StorageImpl) (offset : ℕ) : Option (List Data) :=
  if s.offsetToPos offset ≤ s.array.length then some (s.array.drop (s.offsetToPos offset)) else none

def extend (s : StorageImpl) : StorageImpl :=
  { s with array := s.array ++ List.replicate s.growFactor (.word 0) }

def insert (s : StorageImpl) (offset : ℕ) (data : List Data) : Option StorageImpl :=
  if s.array.length = 0 then none
  else some ⟨s.growFactor, s.array.take (s.offsetToPos offset) ++ data.take s.growFactor ++
    s.array.drop (s.offsetToPos offset)⟩

def remove (s : StorageImpl) (offset : ℕ) : Option StorageImpl :=
  if s.array.length = 0 then none
  else some ⟨s.growFactor, s.array.take (s.offsetToPos offset) ++
    s.array.drop (s.offsetToPos offset + s.growFactor)⟩

def clear (_ : StorageImpl) : StorageImpl := ⟨0, []⟩

/-- Assignments through a pointer to position `pos`, one cell after another. -/
def write (s : StorageImpl) (pos : ℕ) (cells : List Data) : StorageImpl :=
  { s with array := s.array.take pos ++ cells ++ s.array.drop (pos + cells.length) }

end StorageImpl

structure Column where
  name : Bytes
  type : ColumnType
deriving DecidableEq, Repr

structure TableIndex where
  columnNums : List ℕ
  cmp : IndexCompare
  indexMap : List (IndexKey × List ℕ)
  referToTable : Bool
deriving DecidableEq, Repr

structure SharedTable where
  rows : ℕ
  columns : List Column
  storage : StorageImpl
  tableIndexSet : List TableIndex
deriving DecidableEq, Repr

/-- `MakeKey` over the row `data` points at.  `make_key_item` aborts for no column type;
a key beyond `MAX_SIZE` items is written past the end of the array. -/
def makeKey (columnNums : List ℕ) (data : List Data) : Option IndexKey :=
  if columnNums.length ≤ indexKeyMaxSize then
    some (columnNums.map fun col => data.getD col (.word 0))
  else none

/-- `--` on a `size_t`. -/
def decrement (x : ℕ) : ℕ := if x = 0 then Tools.npos else x - 1

namespace TableIndex

def lt (x : TableIndex) : IndexKey → IndexKey → Bool := x.cmp.lt

def isIndexedColumn (x : TableIndex) (colNum : ℕ) : Bool := x.columnNums.contains colNum

def notifyRowDelete (data : List Data) (rowNum : ℕ) (incremental : Bool) (x : TableIndex) :
    Option TableIndex := do
  let key ← makeKey x.columnNums data
  let rows ← get? x.lt key x.indexMap
  if rowNum ∈ rows then
    let indexMap := if (rows.erase rowNum).length = 0 then erase x.lt key x.indexMap
      else update x.lt key [] (fun _ => rows.erase rowNum) x.indexMap
    let indexMap := if incremental then mapValues (renumberFrom decrement rowNum) indexMap
      else indexMap
    some { x with indexMap }
  else none

def notifyRowInsert (data : List Data) (rowNum : ℕ) (incremental : Bool) (x : TableIndex) :
    Option TableIndex := do
  let key ← makeKey x.columnNums data
  -- the bucket is entered before the renumbering and stays referenced over it
  let indexMap := update x.lt key [] id x.indexMap
  let indexMap := if incremental then
      update x.lt key [] (fun row => (row ++ [rowNum]).insertionSort (· ≤ ·))
        (mapValues (renumberFrom (· + 1) rowNum) indexMap)
    else update x.lt key [] (· ++ [rowNum]) indexMap
  some { x with indexMap }

/-- What `SetCellValue` does with each index before it writes the cell. -/
def notifyCellDelete (colNum : ℕ) (data : List Data) (rowNum : ℕ) (x : TableIndex) :
    Option TableIndex :=
  if x.isIndexedColumn colNum then x.notifyRowDelete data rowNum false else some x

/-- What `SetCellValue` does with each index after it wrote the cell. -/
def notifyCellInsert (colNum : ℕ) (data : List Data) (rowNum : ℕ) (x : TableIndex) :
    Option TableIndex :=
  if x.isIndexedColumn colNum then x.notifyRowInsert data rowNum false else some x

/-- `BuildIndex` into an empty map. -/
def buildIndex (storage : StorageImpl) (rows : ℕ) (x : TableIndex) : Option TableIndex := do
  let indexMap ← (List.range rows).foldlM (fun m row => do
    let data ← storage.get row
    let key ← makeKey x.columnNums data
    some (update x.lt key [] (· ++ [row]) m)) x.indexMap
  some { x with indexMap }

def notifyReferToTable (is : Bool) (x : TableIndex) : TableIndex := { x with referToTable := is }

end TableIndex

namespace SharedTable

def height (t : SharedTable) : ℕ := t.rows

def width (t : SharedTable) : ℕ := t.columns.length

/-- `parse_table_def_item`: the name and, if the type is known, the column. -/
def parseTableDefItem (query : Bytes) : Option Column :=
  let (_, name, stype) := Tools.simpleSplitPair query (ascii ":") Tools.whiteSpaces
  (stringToDynamicType (if stype.isEmpty then ascii "STRING" else stype)).map (⟨name, ·⟩)

def new (columns : List Column) : SharedTable :=
  { rows := 0, columns, storage := ⟨columns.length, []⟩, tableIndexSet := [] }

def createColumn (col : Bytes) : Except Bytes Column :=
  match parseTableDefItem col with
  | none => .error (ascii "Wrong table definition: '" ++ col ++ ascii "'")
  | some column => .ok column

def createColumns (tableDef : List Bytes) : Except Bytes SharedTable :=
  if tableDef.isEmpty then .error (ascii "Table definition could not be empty")
  else do
    let columns ← tableDef.mapM createColumn
    .ok (new columns)

def create (tableDef : Bytes) : Except Bytes SharedTable :=
  createColumns (Tools.simpleSplit tableDef (ascii ",") Tools.whiteSpaces)

/-- `column_number`; `none` is `npos`. -/
def columnNumber (columns : List Column) (columnName : Bytes) : Option ℕ :=
  columns.findIdx? fun c => columnName == c.name

def validateArgs (columns : List Column) (vargs : List Dynamic) : Bool :=
  !vargs.isEmpty && (columns.zip vargs).all fun cv => cv.1.type.toDynamic == cv.2.type

def validate (t : SharedTable) (vargs : List Dynamic) : Bool := validateArgs t.columns vargs

def takeArg (v : Dynamic) (h : StringHeap) : Data × StringHeap :=
  (v.data, if isRefCounted v.type then h.incRefData v.data else h)

/-- The loop of `AppendRow`; the flag is `false` when it met an argument of another type. -/
def appendCells (now : ℕ → BitVec 64) :
    ℕ → List Column → List Dynamic → StringHeap → Bool × List Data × StringHeap
  | _, [], _, h => (true, [], h)
  | colNum, c :: cs, v :: vs, h =>
    if c.type.toDynamic ≠ v.type then (false, [], h)
    else
      let (d, h) := takeArg v h
      let (ok, cells, h) := appendCells now (colNum + 1) cs vs h
      (ok, d :: cells, h)
  | colNum, c :: cs, [], h =>
    let (d, h) := getDefault c.type (now colNum) h
    let (ok, cells, h) := appendCells now (colNum + 1) cs [] h
    (ok, d :: cells, h)

/-- The loop of `InsertRow`, which relies on `Validate` alone. -/
def insertCells (now : ℕ → BitVec 64) :
    ℕ → List Column → List Dynamic → StringHeap → List Data × StringHeap
  | _, [], _, h => ([], h)
  | colNum, _ :: cs, v :: vs, h =>
    let (d, h) := takeArg v h
    let (cells, h) := insertCells now (colNum + 1) cs vs h
    (d :: cells, h)
  | colNum, c :: cs, [], h =>
    let (d, h) := getDefault c.type (now colNum) h
    let (cells, h) := insertCells now (colNum + 1) cs [] h
    (d :: cells, h)

/-- The loop of `SetRow` over the old cells.  Only a provided column drops the reference of
the value it replaces. -/
def setCells (now : ℕ → BitVec 64) :
    ℕ → List Column → List Dynamic → List Data → StringHeap → Bool × List Data × StringHeap
  | _, [], _, _, h => (true, [], h)
  | colNum, c :: cs, v :: vs, cache, h =>
    if c.type.toDynamic ≠ v.type then (false, [], h)
    else
      let h := if isRefCounted c.type then h.decRefData (cache.headD (.word 0)) else h
      let (d, h) := takeArg v h
      let (ok, cells, h) := setCells now (colNum + 1) cs vs cache.tail h
      (ok, d :: cells, h)
  | colNum, c :: cs, [], cache, h =>
    let (d, h) := getDefault c.type (now colNum) h
    let (ok, cells, h) := setCells now (colNum + 1) cs [] cache.tail h
    (ok, d :: cells, h)

/-- Dropping the references of the row `cache` points at. -/
def releaseCells : List Column → List Data → StringHeap → StringHeap
  | [], _, h => h
  | c :: cs, cache, h =>
    releaseCells cs cache.tail
      (if isRefCounted c.type then h.decRefData (cache.headD (.word 0)) else h)

def getCellValue (t : SharedTable) (rowNum colNum : ℕ) (h : StringHeap) :
    Option (Dynamic × StringHeap) :=
  if t.height ≤ rowNum then some (Dynamic.none, h)
  else
    match t.columns[colNum]? with
    | none => some (Dynamic.none, h)
    | some c => do
      let cache ← t.storage.get rowNum
      let data := cache.getD colNum (.word 0)
      some (⟨c.type, data⟩, if isRefCounted c.type then h.incRefData data else h)

def appendRow (now : ℕ → BitVec 64) (vargs : List Dynamic) (h : StringHeap) (t : SharedTable) :
    Option (Bool × StringHeap × SharedTable) :=
  if !t.validate vargs then some (false, h, t)
  else
    let pos := t.storage.array.length
    match appendCells now 0 t.columns vargs h with
    | (false, cells, h) => do
      let storage ← (t.storage.extend.write pos cells).remove t.height
      some (false, h, { t with storage })
    | (true, cells, h) => do
      let tableIndexSet ← t.tableIndexSet.mapM (TableIndex.notifyRowInsert cells t.rows false)
      some (true, h, { t with
        rows := t.rows + 1, storage := t.storage.extend.write pos cells, tableIndexSet })

def deleteRow (rowNum : ℕ) (h : StringHeap) (t : SharedTable) :
    Option (Bool × StringHeap × SharedTable) :=
  if t.height ≤ rowNum then some (false, h, t)
  else do
    let cache ← t.storage.get rowNum
    let tableIndexSet ← t.tableIndexSet.mapM (TableIndex.notifyRowDelete cache rowNum true)
    let storage ← t.storage.remove rowNum
    some (true, releaseCells t.columns cache h,
      { t with rows := t.rows - 1, storage, tableIndexSet })

def setRow (now : ℕ → BitVec 64) (rowNum : ℕ) (vargs : List Dynamic) (h : StringHeap)
    (t : SharedTable) : Option (Bool × StringHeap × SharedTable) :=
  if t.height ≤ rowNum || !t.validate vargs then some (false, h, t)
  else do
    let cache ← t.storage.get rowNum
    let removed ← t.tableIndexSet.mapM (TableIndex.notifyRowDelete cache rowNum false)
    match setCells now 0 t.columns vargs cache h with
    | (false, cells, h) =>
      some (false, h, { t with
        storage := t.storage.write (t.storage.offsetToPos rowNum) cells, tableIndexSet := removed })
    | (true, cells, h) => do
      let tableIndexSet ← removed.mapM (TableIndex.notifyRowInsert cells rowNum false)
      some (true, h, { t with
        storage := t.storage.write (t.storage.offsetToPos rowNum) cells, tableIndexSet })

def insertRow (now : ℕ → BitVec 64) (rowNum : ℕ) (vargs : List Dynamic) (h : StringHeap)
    (t : SharedTable) : Option (Bool × StringHeap × SharedTable) :=
  if t.height ≤ rowNum || !t.validate vargs then some (false, h, t)
  else do
    let (preCache, h) := insertCells now 0 t.columns vargs h
    let storage ← t.storage.insert rowNum preCache
    let tableIndexSet ← t.tableIndexSet.mapM (TableIndex.notifyRowInsert preCache rowNum true)
    some (true, h, { t with rows := t.rows + 1, storage, tableIndexSet })

/-- The range check rejects only a pair that is out of range in both numbers; a column out
of range alone is read past the end of `columns_`. -/
def setCellValue (rowNum colNum : ℕ) (v : Dynamic) (h : StringHeap) (t : SharedTable) :
    Option (Bool × StringHeap × SharedTable) :=
  if t.height ≤ rowNum && t.columns.length ≤ colNum then some (false, h, t)
  else do
    let column ← t.columns[colNum]?
    if column.type.toDynamic ≠ v.type then some (false, h, t)
    else do
      let cache ← t.storage.get rowNum
      let removed ← t.tableIndexSet.mapM (TableIndex.notifyCellDelete colNum cache rowNum)
      let d ← cache[colNum]?
      let h := if isRefCounted column.type then h.decRefData d else h
      let (d, h) := takeArg v h
      let storage := t.storage.write (t.storage.offsetToPos rowNum + colNum) [d]
      let cache := cache.set colNum d
      let tableIndexSet ← removed.mapM (TableIndex.notifyCellInsert colNum cache rowNum)
      some (true, h, { t with storage, tableIndexSet })

/-- The loop of `Clear` over the first `n` rows. -/
def releaseRows (t : SharedTable) (n : ℕ) (h : StringHeap) : Option StringHeap :=
  (List.range n).foldlM (fun h rowNum => do
    let cache ← t.storage.get rowNum
    some (releaseCells t.columns cache h)) h

def clear (h : StringHeap) (t : SharedTable) : Option (StringHeap × SharedTable) := do
  let h ← t.releaseRows t.rows h
  some (h, { rows := 0, columns := [], storage := t.storage.clear, tableIndexSet := [] })

/-- One row of `Clone`: a full clone points the cell at a copy of the string. -/
def cloneCells (full : Bool) : List Column → List Data → StringHeap → List Data × StringHeap
  | [], _, h => ([], h)
  | c :: cs, row, h =>
    let d := row.headD (.word 0)
    let (d, h) :=
      if isRefCounted c.type then
        if full then
          let (s, h) := h.alloc d.text
          (.str s, (h.incRef s.addr).decRef s.addr)
        else (d, h.incRefData d)
      else (d, h)
    let (cells, h) := cloneCells full cs row.tail h
    (d :: cells, h)

/-- The loop of `Clone` over the first `n` rows of the copied storage. -/
def cloneRows (full : Bool) (columns : List Column) (n : ℕ) (h : StringHeap)
    (storage : StorageImpl) :
    Option (StringHeap × StorageImpl) :=
  (List.range n).foldlM (fun (h, storage) r => do
    let row ← StorageImpl.get storage r
    let (cells, h) := cloneCells full columns row h
    some (h, storage.write (storage.offsetToPos r) cells)) (h, storage)

def clone (full : Bool) (h : StringHeap) (t : SharedTable) : Option (StringHeap × SharedTable) := do
  let (h, storage) ← cloneRows full t.columns t.rows h t.storage
  some (h, { rows := t.rows, columns := t.columns, storage, tableIndexSet := [] })

def subscribe (t : SharedTable) (x : TableIndex) : SharedTable :=
  { t with tableIndexSet := t.tableIndexSet ++ [x.notifyReferToTable true] }

end SharedTable

namespace TableIndex

def keyColumn (columns : List Column) (item : Bytes) : Except Bytes (ℕ × ItemOrder) :=
  let minus := item.head? == some 45
  let columnName := if minus then item.drop 1 else item
  match (SharedTable.columnNumber columns columnName).bind fun colNum =>
      columns[colNum]?.map (colNum, ·) with
  | none => .error (ascii "Could not find column with name '" ++ columnName ++ ascii "'")
  | some (colNum, column) => .ok (colNum, ⟨column.type, minus⟩)

/-- The loop of `Create` over the items of the definition. -/
def keyColumns (columns : List Column) (indexDefinition : Bytes) :
    Except Bytes (List (ℕ × ItemOrder)) :=
  if indexDefinition.isEmpty then .error (ascii "Index definition could not be empty")
  else (Tools.simpleSplit indexDefinition (ascii ",") Tools.whiteSpaces).mapM (keyColumn columns)

/-- The index `Create` hands to `BuildIndex`. -/
def define (columns : List Column) (indexDefinition : Bytes) : Except Bytes TableIndex := do
  let keys ← keyColumns columns indexDefinition
  let cmp ← getComparator (keys.map fun k => k.2.text)
  pure ⟨keys.map Prod.fst, cmp, [], false⟩

def create (t : SharedTable) (indexDefinition : Bytes) : Option (Except Bytes TableIndex) :=
  match define t.columns indexDefinition with
  | .error error => some (.error error)
  | .ok x => (x.buildIndex t.storage t.rows).map .ok

end TableIndex

def SharedTable.createIndex (indexDefinition : Bytes) (t : SharedTable) :
    Option (Except Bytes SharedTable) :=
  (TableIndex.create t indexDefinition).map fun index => index.map fun x => t.subscribe x

end Nkit
