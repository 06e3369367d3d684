import Nkit.Table.SharedTable

/-! Grouping of tables (`GroupIndex` and `Aggregator`), in one pass over a table and row by
row through a `GroupedTableBuilder`.  As for tables, `none` is an abort or a write outside
an object. -/

namespace Nkit
open OrderedMap

inductive AggregatorType where
  | count | sum | min | max
deriving DecidableEq, Repr

/-- `aggregator_functions_`, in the order it is searched. -/
def aggregatorFunctions : List (Bytes × AggregatorType) :=
  [(ascii "COUNT", .count), (ascii "MIN", .min), (ascii "MAX", .max), (ascii "SUM", .sum)]

/-- `none` is the result `AT_MAX_VALUE`. -/
def stringToAggregatorType (aggrName : Bytes) : Option AggregatorType :=
  (aggregatorFunctions.find? fun item => Tools.strCaseEq item.1 aggrName).map Prod.snd

-- The operations of one type with itself.  `STRING` never gets here: `Create` turns it down.

/-- `OP_ADD`; `BOOL` and `DATE_TIME` inherit the default, which does nothing. -/
def opAdd (type : ColumnType) (v rv : Data) : Data :=
  match type with
  | .integer | .unsignedInteger => .word (v.bits + rv.bits)
  | .float => .ofFloat (v.f + rv.f)
  | .bool | .dateTime | .string => v

/-- `OP_MIN`; `DATE_TIME` inherits the default, which keeps the left operand. -/
def opMin (type : ColumnType) (v rv : Data) : Data :=
  match type with
  | .integer => if v.i64 < rv.i64 then v else rv
  | .unsignedInteger | .bool => if v.ui64 < rv.ui64 then v else rv
  | .float => if v.f < rv.f then v else rv
  | .dateTime | .string => v

/-- `OP_MAX`. -/
def opMax (type : ColumnType) (v rv : Data) : Data :=
  match type with
  | .integer => if v.i64 < rv.i64 then rv else v
  | .unsignedInteger | .bool => if v.ui64 < rv.ui64 then rv else v
  | .float => if v.f > rv.f then v else rv
  | .dateTime | .string => v

def getDefaultData (_ : ColumnType) : Data := .word 0

/-- For `FLOAT`, the word of the double `2 ^ 63`. -/
def getMaxData : ColumnType → Data
  | .integer => .word 0x7FFFFFFFFFFFFFFF
  | .float => .word 0x43E0000000000000
  | .bool => .word 1
  | .unsignedInteger | .dateTime | .string => .word 0xFFFFFFFFFFFFFFFF

/-- For `FLOAT`, the word of the double `-(2 ^ 63)`. -/
def getMinData : ColumnType → Data
  | .integer => .word 0x8000000000000000
  | .float => .word 0xC3E0000000000000
  | .bool | .unsignedInteger | .dateTime | .string => .word 0

/-- `method_` is kept as the function it was chosen for. -/
structure Aggregator where
  columnNum : ℕ
  type : ColumnType
  method : AggregatorType
  defaultData : Data
deriving DecidableEq, Repr

def Aggregator.create (columnNum : ℕ) (type : ColumnType) (aggregatorType : AggregatorType) :
    Aggregator where
  columnNum := columnNum
  type := type
  method := aggregatorType
  defaultData :=
    match aggregatorType with
    | .sum | .count => getDefaultData type
    | .min => getMaxData type
    | .max => getMinData type

def Aggregator.update (a : Aggregator) (out : Data) (row : List Data) : Data :=
  match a.method with
  | .count => .word (out.bits + 1)
  | .sum => opAdd a.type out (row.getD a.columnNum (.word 0))
  | .min => opMin a.type out (row.getD a.columnNum (.word 0))
  | .max => opMax a.type out (row.getD a.columnNum (.word 0))

namespace SharedTable

/-- The loop of `AppendRowUnsafe`. -/
def unsafeCells (now : ℕ → BitVec 64) :
    ℕ → List Column → List Data → StringHeap → List Data × StringHeap
  | _, [], _, h => ([], h)
  | colNum, c :: cs, d :: ds, h =>
    let h := if isRefCounted c.type then h.incRefData d else h
    let (cells, h) := unsafeCells now (colNum + 1) cs ds h
    (d :: cells, h)
  | colNum, c :: cs, [], h =>
    let (d, h) := getDefault c.type (now colNum) h
    let (cells, h) := unsafeCells now (colNum + 1) cs [] h
    (d :: cells, h)

def appendRowUnsafe (now : ℕ → BitVec 64) (vargs : List Data) (h : StringHeap) (t : SharedTable) :
    StringHeap × SharedTable :=
  let pos := t.storage.array.length
  let (cells, h) := unsafeCells now 0 t.columns vargs h
  (h, { t with rows := t.rows + 1, storage := t.storage.extend.write pos cells })

def setRowUnsafe (vargs : List Data) (rowNum : ℕ) (t : SharedTable) : Option SharedTable := do
  let cache ← t.storage.get rowNum
  if t.columns.length ≤ cache.length then
    let cells := (List.range t.columns.length).map fun colNum => vargs.getD colNum (.word 0)
    some { t with storage := t.storage.write (t.storage.offsetToPos rowNum) cells }
  else none

end SharedTable

structure GroupIndex where
  indexColumnNums : List ℕ
  aggregators : List Aggregator
  groupedTable : SharedTable
  cmp : IndexCompare
  indexMap : List (IndexKey × List Data)
deriving DecidableEq, Repr

namespace GroupIndex

structure KeyColumn where
  colNum : ℕ
  column : Column
  order : ItemOrder
deriving DecidableEq, Repr

def findColumn (columns : List Column) (columnName : Bytes) : Except Bytes (ℕ × Column) :=
  match (SharedTable.columnNumber columns columnName).bind fun colNum =>
      columns[colNum]?.map (colNum, ·) with
  | none => .error (ascii "Could not find column '" ++ columnName ++ ascii "'")
  | some found => .ok found

def keyColumn (columns : List Column) (item : Bytes) : Except Bytes KeyColumn := do
  let minus := item.head? == some 45
  let columnName := if minus then item.drop 1 else item
  let (colNum, column) ← findColumn columns columnName
  pure ⟨colNum, column, ⟨getDynamicTypeAffinity column.type, minus⟩⟩

def columnDef (columnName : Bytes) (type : ColumnType) : Bytes :=
  columnName ++ ascii ":" ++ dynamicTypeToString type

def aggregatorOf (columns : List Column) (aggrDef : Bytes) : Except Bytes (Bytes × Aggregator) :=
  let (_, aggrFunc, rest) := Tools.simpleSplitPair aggrDef (ascii "(") Tools.whiteSpaces
  let (_, columnName, _) := Tools.simpleSplitPair rest (ascii ")") Tools.whiteSpaces
  match stringToAggregatorType aggrFunc with
  | none => .error (ascii "Unknown aggregator function '" ++ aggrFunc ++ ascii "'")
  | some .count =>
    .ok (columnDef (ascii "COUNT") .unsignedInteger, .create 0 .unsignedInteger .count)
  | some aggrType =>
    if columnName.isEmpty then
      .error (ascii "Aggregator function '" ++ aggrFunc ++
        ascii "' must be provided with column name")
    else do
      let (colNum, column) ← findColumn columns columnName
      if column.type = .string then
        .error (ascii "Column '" ++ columnName ++
          ascii "' could not be used with SUM/MIN/MAX aggregators: its type is STRING")
      else
        .ok (columnDef columnName column.type, .create colNum column.type aggrType)

def keyColumns (columns : List Column) (indexDef : Bytes) : Except Bytes (List KeyColumn) :=
  (Tools.simpleSplit indexDef (ascii ",") Tools.whiteSpaces).mapM (keyColumn columns)

def create (columns : List Column) (indexDef aggr : Bytes) : Except Bytes GroupIndex :=
  if indexDef.isEmpty then .error (ascii "Index definitions could not be empty")
  else if aggr.isEmpty then .error (ascii "Aggregator definitions could not be empty")
  else do
    let keys ← keyColumns columns indexDef
    let aggrs ← (Tools.simpleSplit aggr (ascii ",") Tools.whiteSpaces).mapM (aggregatorOf columns)
    let cmp ← getComparator (keys.map fun k => k.order.text)
    let groupedTable ← SharedTable.createColumns
      ((keys.map fun k => columnDef k.column.name k.column.type) ++ aggrs.map Prod.fst)
    pure ⟨keys.map KeyColumn.colNum, aggrs.map Prod.snd, groupedTable, cmp, []⟩

def lt (g : GroupIndex) : IndexKey → IndexKey → Bool := g.cmp.lt

def newBucket (g : GroupIndex) : List Data := g.aggregators.map Aggregator.defaultData

def updateBucket (g : GroupIndex) (bucket row : List Data) : List Data :=
  g.aggregators.zipWith (fun a out => a.update out row) bucket

/-- `UpdateIndex` under the key that was made; the flag says that the key is new. -/
def updateIndex (key : IndexKey) (row : List Data) (g : GroupIndex) : Bool × GroupIndex :=
  match get? g.lt key g.indexMap with
  | some bucket =>
    (false, { g with
      indexMap := update g.lt key [] (fun _ => g.updateBucket bucket row) g.indexMap })
  | none =>
    (true, { g with
      indexMap := update g.lt key [] (fun _ => g.updateBucket g.newBucket row) g.indexMap })

/-- `MakeRow`: the scratch row has a place for every key item and every aggregate. -/
def makeRow (g : GroupIndex) (it : IndexKey × List Data) : List Data :=
  ((List.range g.indexColumnNums.length).map fun i => it.1.getD i (.word 0)) ++
    (List.range g.aggregators.length).map fun i => it.2.getD i (.word 0)

/-- `UpdateIndex` of the batch path over one row of the source. -/
def updateFromTable (row : List Data) (g : GroupIndex) : Option GroupIndex := do
  let key ← makeKey g.indexColumnNums row
  some (g.updateIndex key row).2

/-- `Build` from a table. -/
def buildFrom (now : ℕ → BitVec 64) (src : SharedTable) (h : StringHeap) (g : GroupIndex) :
    Option (StringHeap × SharedTable) :=
  if src.height = 0 then some (h, g.groupedTable)
  else do
    let g ← (List.range src.height).foldlM (fun g i => do
      let row ← src.storage.get i
      g.updateFromTable row) g
    some (g.indexMap.foldl (fun (h, dst) it => dst.appendRowUnsafe now (g.makeRow it) h)
      (h, g.groupedTable))

/-- `MakeKey` of the streaming path, from the types that came with the data. -/
def makeTypedKey (columnNums : List ℕ) (data : List Data) (types : List DynamicType) :
    Option IndexKey :=
  if columnNums.length ≤ indexKeyMaxSize then
    columnNums.mapM fun col => makeKeyItem (data.getD col (.word 0)) (types.getD col .undef)
  else none

/-- `UpdateIndex` of the streaming path: a new key adds a row to the result at once. -/
def updateFromRow (now : ℕ → BitVec 64) (data : List Data) (types : List DynamicType)
    (h : StringHeap) (g : GroupIndex) : Option (StringHeap × GroupIndex) := do
  let key ← makeTypedKey g.indexColumnNums data types
  match g.updateIndex key data with
  | (false, g) => some (h, g)
  | (true, g) =>
    let it ← (find g.lt key g.indexMap).head?
    let (h, groupedTable) := g.groupedTable.appendRowUnsafe now (g.makeRow it) h
    some (h, { g with groupedTable })

/-- `Build` of the streaming path: the rows are overwritten in the order of the keys. -/
def build (g : GroupIndex) : Option GroupIndex := do
  let groupedTable ← g.indexMap.zipIdx.foldlM (fun dst (it, r) => dst.setRowUnsafe (g.makeRow it) r)
    g.groupedTable
  some { g with groupedTable }

end GroupIndex

/-- `Dynamic::Group`. -/
def SharedTable.group (now : ℕ → BitVec 64) (indexDef aggr : Bytes) (h : StringHeap)
    (t : SharedTable) :
    Option (Except Bytes (StringHeap × SharedTable)) :=
  match GroupIndex.create t.columns indexDef aggr with
  | .error error => some (.error error)
  | .ok g => (g.buildFrom now t h).map .ok

/-- `current_data_` and `current_types_` keep what earlier rows left in them. -/
structure GroupedTableBuilder where
  validatorTable : SharedTable
  index : GroupIndex
  currentData : List Data
  currentTypes : List DynamicType
deriving DecidableEq, Repr

namespace GroupedTableBuilder

/-- With a definition `GroupIndex::Create` turns down the source goes on without an index,
which no call survives; here that is the error. -/
def create (tableDef indexDef aggr : Bytes) : Except Bytes GroupedTableBuilder := do
  let t ← SharedTable.create tableDef
  let index ← GroupIndex.create t.columns indexDef aggr
  pure ⟨t, index, List.replicate t.width (.word 0), List.replicate t.width .undef⟩

/-- The loop of the `Validate` that copies the arguments as it goes. -/
def copyArgs : List Column → List Dynamic → List Data → List DynamicType →
    Bool × List Data × List DynamicType
  | c :: cs, v :: vs, d :: ds, t :: ts =>
    if c.type.toDynamic ≠ v.type then (false, d :: ds, t :: ts)
    else
      let (ok, ds, ts) := copyArgs cs vs ds ts
      (ok, v.data :: ds, v.type :: ts)
  | _, _, ds, ts => (true, ds, ts)

def validate (vargs : List Dynamic) (b : GroupedTableBuilder) : Bool × GroupedTableBuilder :=
  if vargs.isEmpty then (false, b)
  else
    let (ok, data, types) := copyArgs b.validatorTable.columns vargs b.currentData b.currentTypes
    (ok, { b with currentData := data, currentTypes := types })

def insertRow (now : ℕ → BitVec 64) (vargs : List Dynamic) (h : StringHeap)
    (b : GroupedTableBuilder) :
    Option (Bool × StringHeap × GroupedTableBuilder) :=
  match b.validate vargs with
  | (false, b) => some (false, h, b)
  | (true, b) => do
    let (h, index) ← b.index.updateFromRow now b.currentData b.currentTypes h
    some (true, h, { b with index })

def getResult (b : GroupedTableBuilder) : Option (SharedTable × GroupedTableBuilder) := do
  let index ← b.index.build
  some (index.groupedTable, { b with index })

end GroupedTableBuilder

end Nkit
