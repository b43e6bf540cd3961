/-
# `rdb_alsosql.c`, tables and indexes — `rdbSaveBT` and `rdbLoadBT`

The writer and the reader of a table and of an index, field by field.  Numbers that can
be `-1` are written one higher; the flag `hashy` is written as a length and read as a raw
byte, into the lowest byte of the variable that held the type of the last column.  A
virtual index has no tree and is one byte.  Left out of the two structures are the fields
that no byte of a dump depends on, and what the loader recomputes of them: the counters of
LRU and LFU, the auto increment value and the column dictionary.
-/
import AlchemyDB.Rdb.Rows

namespace AlchemyDB.Rdb

open Catalog Row

/-! ## Data -/

/-- The types `COL_TYPE_*` a tree can have for its keys. -/
def ctype : Nat → Option ColType
  | 1 => some .int
  | 2 => some .long
  | 3 => some .string
  | 4 => some .float
  | 5 => some .u128
  | _ => none

def typeCode : ColType → Nat
  | .int => 1
  | .long => 2
  | .string => 3
  | .float => 4
  | .u128 => 5

/-- `COL_TYPE_LUAO`. -/
def colTypeLuao : Nat := 6

/-- `BTREE_TABLE` to `BT_SIMP_UNIQ`. -/
def btypeCode : BType → Nat
  | .table => 0
  | .index => 1
  | .inode => 2
  | .mci => 3
  | .mciMid => 4
  | .mciUniq => 5
  | .simpUniq => 6

/-- `icol_t`. -/
structure Icol where
  cmatch : Int
  lo : List Sds
  deriving DecidableEq, Repr

/-- `r_col_t`. -/
structure RCol where
  name : Sds
  type : Nat
  indxd : Bool
  imatch : Int
  deriving DecidableEq, Repr

/-- `r_tbl_t`. -/
structure RTbl where
  name : Sds
  vimatch : Nat
  col : List RCol
  hashy : Bool
  ilist : List Nat
  nmci : Nat
  fdict : Dict Nat
  btr : Bt Block

/-- The tree of an index, which is not saved but for its specification. -/
structure IndBt where
  btype : BType
  ktype : Nat
  deriving DecidableEq, Repr

/-- `r_ind_t`; `clist` and `bclist` hold the same columns. -/
structure RInd where
  name : Sds
  tmatch : Nat
  icol : Icol
  clist : Option (List Icol)
  virt : Bool
  cnstr : Nat
  lru : Bool
  lfu : Bool
  obc : Icol
  dtype : Nat
  fname : Option Sds
  iconstrct : Option Sds
  idestrct : Option Sds
  btr : Option IndBt
  deriving DecidableEq, Repr

/-- The tables and indexes, and the dictionaries of their names. -/
structure Db where
  tbl : Nat → Option RTbl
  index : Nat → Option RInd
  tblD : Dict Nat
  indD : Dict Nat

/-- `init_DXDB_PersistentStorageItems`. -/
def Db.init : Db := ⟨fun _ => none, fun _ => none, [], []⟩

/-! ## Saving -/

section Save

variable (sc : StringObject)

/-- `rdbSaveIcol`. -/
def rdbSaveIcol (ic : Icol) : List UInt8 :=
  rdbSaveLen ((ic.cmatch + 1) % 4294967296).toNat ++ (rdbSaveLen ic.lo.length ++ ic.lo.flatMap sc.save)

def saveCol (c : RCol) : List UInt8 := sc.save c.name ++ rdbSaveLen c.type

/-- What is written for a table, around its rows. -/
def tableBytes (tmatch : Nat) (rt : RTbl) (rows : List UInt8) : List UInt8 :=
  [0] ++ (rdbSaveLen tmatch ++ (rdbSaveLen rt.vimatch ++ (sc.save rt.name ++
  (rdbSaveLen rt.col.length ++ (rt.col.flatMap (saveCol sc) ++ (rdbSaveLen rt.hashy.toNat ++
  ([UInt8.ofNat (typeCode rt.btr.s.ktype)] ++ (rdbSaveLen rt.btr.numkeys.toNat ++ rows))))))))

/-- `rdbSaveBT` of a table. -/
def saveTable (tmatch : Nat) (rt : RTbl) : Option (List UInt8) :=
  (if rt.btr.numkeys > 0 then rdbSaveAllRows rt.btr.s rt.btr.heap rt.btr.next rt.btr.root
    else some []).map (tableBytes sc tmatch rt)

/-- The columns of an index: the list of a multiple column index, or one. -/
def saveIcols (ri : RInd) : List UInt8 :=
  match ri.clist with
  | some l => rdbSaveLen l.length ++ l.flatMap (rdbSaveIcol sc)
  | none => rdbSaveLen 1 ++ rdbSaveIcol sc ri.icol

/-- A field that is there or not, behind its flag. -/
def saveFlagged (flag : Option Sds) (strs : List Sds) : List UInt8 :=
  match flag with
  | some _ => rdbSaveLen 1 ++ strs.flatMap sc.save
  | none => rdbSaveLen 0

/-- What is written for an index. -/
def indexBytes (imatch : Nat) (ri : RInd) : List UInt8 :=
  match ri.btr with
  | none => [255]
  | some b =>
    [UInt8.ofNat (btypeCode b.btype)] ++ (rdbSaveLen imatch ++ (sc.save ri.name ++
    (rdbSaveLen ri.tmatch ++ (saveIcols sc ri ++ (rdbSaveLen ri.cnstr ++ (rdbSaveLen ri.lru.toNat ++
    (rdbSaveLen ri.lfu.toNat ++ (rdbSaveLen ((ri.obc.cmatch + 1) % 4294967296).toNat ++
    (rdbSaveLen ri.dtype ++ (saveFlagged sc ri.fname (ri.fname.toList ++ ri.iconstrct.toList) ++
    (saveFlagged sc ri.idestrct ri.idestrct.toList ++ [UInt8.ofNat b.ktype])))))))))))

/-- `rdbSaveBT` of an index.  The constructor of a function index is not tested for `NULL`. -/
def saveIndex (imatch : Nat) (ri : RInd) : Option (List UInt8) :=
  if ri.btr.isSome && ri.fname.isSome && ri.iconstrct.isNone then none else some (indexBytes sc imatch ri)

end Save

/-! ## Loading -/

/-- A load step that can fail for another reason than the file. -/
def orFail {A : Type} : Option A → Load A
  | none => failure
  | some a => pure a

def ofExcept {A : Type} : Except Fault A → Option A
  | .error _ => none
  | .ok a => some a

section Load

variable (sc : StringObject) (fcmp : List UInt8 → List UInt8 → Int) (runLua : Sds → Sds → Sds → Bool)

/-- `rdbLoadIcol`, but for the mark it leaves on the column. -/
def rdbLoadIcol : Load Icol := do
  let u ← loadLen
  let n ← loadLen
  let lo ← many sc.load n
  pure ⟨int32 ((u : Int) - 1), lo⟩

/-- `rt->col[ic->cmatch].indxd = 1`. -/
def markIndxd (col : List RCol) (ic : Icol) : Option (List RCol) :=
  if ic.cmatch = -1 then some col
  else
    match ic.cmatch with
    | .ofNat j => if j < col.length then some (col.modify j fun c => { c with indxd := true }) else none
    | .negSucc _ => none

/-- `rt->col[cmatch].imatch = imatch`. -/
def setImatch (col : List RCol) (ic : Icol) (imatch : Nat) : List RCol :=
  if ic.cmatch = -1 then col else col.modify ic.cmatch.toNat fun c => { c with imatch := imatch }

def loadCol : Load (Sds × Nat) := do
  let cname ← sc.load
  let u ← loadLen
  pure (cname, u)

/-- The dictionary of the columns, where every `dictAdd` must succeed. -/
def cdict (names : List Sds) : Option (Dict Nat) :=
  names.foldlM (fun d n => ofExcept (dictAdd d n (d.length + 1))) []

/-- The name of the index on the primary key. -/
def pkIndexName (tname cname : Sds) : Sds := tname ++ ['_'] ++ cname ++ "_index".toList

/-- The virtual index of a table that is loaded. -/
def pkIndex (name : Sds) (tmatch : Nat) : RInd :=
  { name := name, tmatch := tmatch, icol := ⟨0, []⟩, clist := none, virt := true, cnstr := 0, lru := false,
    lfu := false, obc := ⟨-1, []⟩, dtype := 0, fname := none, iconstrct := none, idestrct := none, btr := none }

/-- `rdbLoadBT` of a table. -/
def loadTable (db : Db) (tmatch : Nat) : Load Db := do
  let vimatch ← loadLen
  let name ← sc.load
  let n ← loadLen
  let cs ← many (loadCol sc) n
  let _ ← orFail (cdict (cs.map Prod.fst))
  let u ← freadLow ((cs.getLast?.map Prod.snd).getD n)
  let k ← freadLow u
  let ktype ← orFail (ctype (k % 256))
  let nkeys ← loadLen
  let btr ← loadRows nkeys (createDBT fcmp ktype (cs.map fun c => ctype (c.2 % 256)))
  let col := cs.map fun c => (⟨c.1, c.2 % 256, false, -1⟩ : RCol)
  let c₀ ← orFail col.head?
  let tblD ← orFail (ofExcept (dictAdd db.tblD name (tmatch + 1)))
  let iname := pkIndexName name c₀.name
  let indD ← orFail (ofExcept (dictAdd db.indD iname (vimatch + 1)))
  let rt : RTbl := { name := name, vimatch := vimatch,
                     col := col.modify 0 fun c => { c with imatch := vimatch, indxd := true },
                     hashy := u != 0, ilist := [vimatch], nmci := 0, fdict := [], btr := btr }
  pure ⟨Store.upd db.tbl tmatch (some rt), Store.upd db.index vimatch (some (pkIndex iname tmatch)), tblD, indD⟩

/-- `createMCI_IBT`, `createU_S_IBT` or `createIndexBT`. -/
def indexTree (types : List Nat) (clist : Option (List Icol)) (cnstr dtype : Nat) : Option IndBt :=
  match clist with
  | some l => do
      let ic ← l.head?
      let k ← types[ic.cmatch.toNat]?
      pure ⟨.mci, if k = colTypeLuao then dtype else k⟩
  | none =>
      if cnstr = 1 then ((ctype dtype).bind num).map fun _ => ⟨.simpUniq, dtype⟩
      else some ⟨.index, dtype⟩

/-- The columns of an index: `icol` and `clist`; `addC2MCI` refuses the primary key. -/
def loadIcols : Load (Icol × Option (List Icol)) := do
  let u ← loadLen
  if u = 1 then do
    let ic ← rdbLoadIcol sc
    pure (ic, none)
  else do
    let l ← many (rdbLoadIcol sc) u
    if l.all fun ic => decide (0 < ic.cmatch) then pure (l.head?.getD ⟨0, []⟩, some l) else failure

/-- The strings behind a flag. -/
def loadFlagged (n : Nat) : Load (List Sds) := do
  let u ← loadLen
  if u = 0 then pure [] else many sc.load n

/-- The function of an index enters `fdict`. -/
def addFunc (fdict : Dict Nat) (imatch : Nat) : List Sds → Option (Dict Nat)
  | [] => some fdict
  | fname :: _ =>
      if (dictFetchValue fdict fname).isSome then none else some (fdict ++ [(fname, imatch + 1)])

/-- `rdbLoadBT` of an index.  `runLua` is `runLuaFunctionIndexFunc`, with the constructor, the table
and the index. -/
def loadIndex (db : Db) (imatch : Nat) : Load Db := do
  let name ← sc.load
  let tmatch ← loadLen
  let rt ← orFail (db.tbl tmatch)
  let (icol, clist) ← loadIcols sc
  let col ← orFail ((clist.getD [icol]).foldlM markIndxd rt.col)
  let cnstr ← loadLen
  let lru ← loadLen
  let lfu ← loadLen
  let u ← loadLen
  let dtype ← loadLen
  let f ← loadFlagged sc 2
  let fdict ← orFail (addFunc rt.fdict imatch f)
  let g ← loadFlagged sc 1
  let _ ← freadByte
  let btr ← orFail (indexTree (rt.col.map RCol.type) clist (cnstr % 256) (dtype % 256))
  let indD ← orFail (ofExcept (dictAdd db.indD name (imatch + 1)))
  let _ ← orFail (if (f[1]?.map fun c => runLua c rt.name name).getD true then some () else none)
  let ri : RInd := { name := name, tmatch := tmatch, icol := icol, clist := clist, virt := false,
                     cnstr := cnstr % 256, lru := lru != 0, lfu := lfu != 0,
                     obc := ⟨int32 u - 1, []⟩, dtype := dtype % 256, fname := f.head?,
                     iconstrct := f[1]?, idestrct := g.head?, btr := some btr }
  let rt' : RTbl := { rt with col := setImatch col icol imatch, ilist := rt.ilist ++ [imatch],
                              nmci := if clist.isSome then rt.nmci + 1 else rt.nmci, fdict := fdict }
  pure ⟨Store.upd db.tbl tmatch (some rt'), Store.upd db.index imatch (some ri), db.tblD, indD⟩

/-- `rdbLoadBT`. -/
def rdbLoadBT (db : Db) : Load Db := do
  let btype ← freadByte
  if btype = 255 then pure db
  else do
    let num ← loadLen
    if btype = 0 then loadTable sc fcmp db num else loadIndex sc runLua db num

end Load

/-! ## A dump -/

/-- A table with the indexes of its `ilist`, which `DXDB_rdbSave` writes behind it. -/
structure Entry where
  tmatch : Nat
  rt : RTbl
  inds : List (Nat × RInd)

/-- `REDIS_BTREE`. -/
def redisBtree : UInt8 := 5

/-- `REDIS_EOF`. -/
def redisEof : UInt8 := 255

def saveEntry (sc : StringObject) (e : Entry) : Option (List UInt8) := do
  let t ← saveTable sc e.tmatch e.rt
  let is ← e.inds.mapM fun i => saveIndex sc i.1 i.2
  pure ((t :: is).flatMap fun b => redisBtree :: b)

/-- The loop of `DXDB_rdbSave`, without Lua triggers. -/
def rdbSave (sc : StringObject) (es : List Entry) : Option (List UInt8) := do
  let bs ← es.mapM (saveEntry sc)
  pure (bs.flatten ++ [redisEof])

/-- The loop of `DXDB_rdbLoad`. -/
def rdbLoad (sc : StringObject) (fcmp : List UInt8 → List UInt8 → Int) (runLua : Sds → Sds → Sds → Bool) :
    Nat → Db → Load Db
  | 0, _ => failure
  | fuel + 1, db => do
    let type ← freadByte
    if type = redisEof.toNat then pure db
    else if type = redisBtree.toNat then do
      let db ← rdbLoadBT sc fcmp runLua db
      rdbLoad sc fcmp runLua fuel db
    else failure

end AlchemyDB.Rdb
