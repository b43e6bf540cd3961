/-
# A dump is loaded as it was saved

The tables come back with their names, columns and rows, the indexes with what defines
them.  A row is a block of bytes, and a loaded tree has the same blocks as the saved one,
whatever the comparison says; where the comparison is the order of the primary keys, each
key finds the block it found before.
-/
import AlchemyDB.Rdb.Tables

namespace AlchemyDB.Rdb

open Catalog Row Store

/-! ## A tree -/

/-- The tree `s'` has the entries of `s`. -/
structure Restored (s s' : Bt Block) : Prop where
  spec : s'.s = s.s
  numkeys : s'.numkeys = s.numkeys
  rows : ∃ cells cells', s.inorder = some cells ∧ s'.inorder = some cells' ∧
    (cells'.map Prod.fst).Perm (cells.map Prod.fst)
  found : ∀ {κ : Type} [LinearOrder κ] (key : Block → κ) (m : κ → Option Block), CmpOk s'.cmp key →
    Represents key s m → Represents key s' m

section Tree

variable (fcmp : List UInt8 → List UInt8 → Int) {ktype : ColType} {types : List (Option ColType)}
  {s : Bt Block} {rows : List Block}

/-- A loaded tree finds what the saved one found. -/
theorem represents_of_perm {κ : Type} [LinearOrder κ] {key : Block → κ} {m : κ → Option Block}
    {cmp : Block → Block → Int} {sp : Bts} {l : List Block} {s' : Bt Block} (hc : CmpOk cmp key)
    (hl : insertAll l (btCreate cmp .one sp false) = some s')
    (hi : ∃ cells, s.inorder = some cells ∧ l.Perm (cells.map Prod.fst)) (hr : Represents key s m) :
    Represents key s' m := by
  obtain ⟨cells, hin, hp⟩ := hi
  obtain ⟨d, T, -, hT, hlt, -, hm⟩ := hr
  obtain rfl : cells = T.cells := Option.some.inj (hin.symm.trans hT)
  have hp : l.Perm T.keys := hp
  have hn : ((l.reverse ++ []).map key).Nodup := by
    rw [List.append_nil]
    refine ((((List.reverse_perm l).trans hp).map key).nodup_iff).2 ?_
    exact List.pairwise_map.2 (hlt.imp fun h => h.ne)
  obtain ⟨s₁, hall, d', T', m', M, hk⟩ := (keysAt_create hc sp false).insertAll hn
  obtain rfl : s₁ = s' := Option.some.inj (hall.symm.trans hl)
  rw [List.append_nil] at hk
  have hkeys : T'.keys.Perm T.keys := hk.trans ((List.reverse_perm l).trans hp)
  exact (MapAt.mk M.clean M.spec M.strict fun kk e => by rw [hm kk e, hkeys.mem_iff]).represents

/-- The rows are written in some order, and a new tree that takes them in is the saved one. -/
theorem tree_dumped (hs : s.s = dbtSpec ktype types) (B : Bagged s rows)
    (hm : ∀ e ∈ rows, Made s.s e) (hn : s.numkeys = rows.length) :
    ∃ l s', (if s.numkeys > 0 then rdbSaveAllRows s.s s.heap s.next s.root else some []) =
        some (l.flatMap rowBytes) ∧ l.length = s.numkeys.toNat ∧ (∀ e ∈ l, Made s.s e) ∧
      insertAll l (createDBT fcmp ktype types) = some s' ∧ Restored s s' ∧
      ∃ cells, s.inorder = some cells ∧ l.Perm (cells.map Prod.fst) := by
  obtain ⟨d, T, W, hl, ht, hp⟩ := B
  have hpre := (preorder_perm T).trans hp
  have hmade : ∀ e ∈ preorder T, Made s.s e := fun e he => hm e (hpre.subset he)
  have hsave : rdbSaveAllRows s.s s.heap s.next s.root = some ((preorder T).flatMap rowBytes) := by
    rw [W.root]
    exact saveAllRows_eq W.good.stored W.depth hmade
  have hlen : (preorder T).length = s.numkeys.toNat := by
    rw [hpre.length_eq, hn]
    rfl
  have B₀ := bagged_create (dbtCmp fcmp (dbtSpec ktype types)) (dbtSpec ktype types) false
  obtain ⟨s', hall, B', hkit, hnum⟩ := B₀.insertAll (l := preorder T)
  refine ⟨preorder T, s', ?_, hlen, hmade, hall, ⟨?_, ?_, ?_, ?_⟩, T.cells, W.inorder, preorder_perm T⟩
  · split_ifs with h
    · exact hsave
    · have h0 : (preorder T).length = 0 := by
        rw [hpre.length_eq]
        omega
      rw [List.length_eq_zero_iff.1 h0]
      rfl
  · rw [show s'.s = dbtSpec ktype types from congrArg (fun r => r.2.2.2) hkit, hs]
  · rw [hnum, hpre.length_eq, hn]
    exact Int.zero_add _
  · obtain ⟨cells', hin', hp'⟩ := B'.inorder
    refine ⟨T.cells, cells', W.inorder, hin', ?_⟩
    rw [List.append_nil] at hp'
    exact hp'.trans ((List.reverse_perm _).trans (preorder_perm T))
  · intro κ _ key m hc hr
    have hcmp : s'.cmp = dbtCmp fcmp (dbtSpec ktype types) := congrArg (fun r => r.1) hkit
    exact represents_of_perm (hcmp ▸ hc) hall ⟨T.cells, W.inorder, preorder_perm T⟩ hr

theorem tree_restored (hs : s.s = dbtSpec ktype types) (B : Bagged s rows)
    (hm : ∀ e ∈ rows, Made s.s e) (hn : s.numkeys = rows.length) :
    ∃ bytes s', (if s.numkeys > 0 then rdbSaveAllRows s.s s.heap s.next s.root else some []) = some bytes ∧
      Reads (loadRows s.numkeys.toNat (createDBT fcmp ktype types)) bytes s' ∧ Restored s s' := by
  obtain ⟨l, s', hsave, hlen, hmade, hall, R, -⟩ := tree_dumped fcmp hs B hm hn
  have B₀ := bagged_create (dbtCmp fcmp (dbtSpec ktype types)) (dbtSpec ktype types) false
  refine ⟨l.flatMap rowBytes, s', hsave, ?_, R⟩
  rw [← hlen]
  exact loadRows_reads B₀ rfl (fun e he => hs ▸ hmade e he) hall

end Tree

/-! ## What a database is -/

/-- A table in slot `tmatch`. -/
structure TableOk (tmatch : Nat) (rt : RTbl) : Prop where
  tmatch : tmatch < lenErr
  vimatch : rt.vimatch < lenErr
  cols : rt.col.length < 2147483648
  types : ∀ c ∈ rt.col, c.type < 256
  names : (rt.col.map fun c => fold c.name).Nodup
  pk : ∃ c k, rt.col.head? = some c ∧ ctype c.type = some k ∧
    rt.btr.s = dbtSpec k (rt.col.map fun c => ctype c.type)
  rows : ∃ rows, Bagged rt.btr rows ∧ (∀ e ∈ rows, Made rt.btr.s e) ∧ rt.btr.numkeys = rows.length ∧
    rows.length < lenErr

/-- A column of an index on a table of `n` columns. -/
structure IcolOk (n : Nat) (ic : Icol) : Prop where
  low : -1 ≤ ic.cmatch
  high : ic.cmatch < n
  path : ic.lo.length < lenErr

/-- An index with a tree, in slot `imatch`, on the table of the entry. -/
structure IndexOk (runLua : Sds → Sds → Sds → Bool) (tmatch : Nat) (rt : RTbl) (imatch : Nat)
    (ri : RInd) : Prop where
  imatch : imatch < lenErr
  tmatch : ri.tmatch = tmatch
  icol : IcolOk rt.col.length ri.icol
  obc : IcolOk rt.col.length ri.obc
  clist : ∀ l, ri.clist = some l → 2 ≤ l.length ∧ l.length < lenErr ∧ l.head? = some ri.icol ∧
    ∀ ic ∈ l, IcolOk rt.col.length ic ∧ 0 < ic.cmatch
  cnstr : ri.cnstr < 256
  dtype : ri.dtype < 256
  func : ri.fname.isSome = ri.iconstrct.isSome
  tree : ri.btr ≠ none ∧ indexTree (rt.col.map RCol.type) ri.clist ri.cnstr ri.dtype = ri.btr
  lua : ∀ c, ri.iconstrct = some c → runLua c rt.name ri.name = true

/-! ## What comes back -/

/-- `rt'` is the table `rt`. -/
structure TableRestored (rt rt' : RTbl) : Prop where
  name : rt'.name = rt.name
  cols : (rt'.col.map fun c => (c.name, c.type)) = rt.col.map fun c => (c.name, c.type)
  hashy : rt'.hashy = rt.hashy
  vimatch : rt'.vimatch = rt.vimatch
  tree : Restored rt.btr rt'.btr

/-- `ri'` is the index `ri`, but for the path of its ORDER BY column. -/
structure IndexRestored (ri ri' : RInd) : Prop where
  name : ri'.name = ri.name
  tmatch : ri'.tmatch = ri.tmatch
  icol : ri'.icol = ri.icol
  clist : ri'.clist = ri.clist
  cnstr : ri'.cnstr = ri.cnstr
  obc : ri'.obc.cmatch = ri.obc.cmatch
  dtype : ri'.dtype = ri.dtype
  tree : ri'.btr = ri.btr
  lru : ri'.lru = ri.lru
  lfu : ri'.lfu = ri.lfu
  func : ri'.fname = ri.fname ∧ ri'.iconstrct = ri.iconstrct ∧ ri'.idestrct = ri.idestrct

theorem reads_orFail {A : Type} {o : Option A} {a : A} (h : o = some a) : Reads (orFail o) [] a := by
  subst h
  exact reads_pure a

theorem ctype_typeCode : ∀ k : ColType, ctype (typeCode k % 256) = some k
  | .int | .long | .string | .float | .u128 => rfl

/-- The names of a dictionary. -/
def dnames {A : Type} (d : Dict A) : List Sds := d.map fun e => fold e.1

theorem dictAdd_new {A : Type} {d : Dict A} {n : Sds} {v : A} (h : fold n ∉ dnames d) :
    ofExcept (dictAdd d n v) = some (d ++ [(n, v)]) := by
  have hnone : d.find? (fun e => fold e.1 == fold n) = none := by
    refine List.find?_eq_none.2 fun e he heq => h ?_
    exact List.mem_map.2 ⟨e, he, by simpa using heq⟩
  rw [dictAdd, dictFetchValue, hnone]
  rfl

theorem cdict_names : ∀ {ns : List Sds} {d : Dict Nat}, (dnames d ++ ns.map fold).Nodup →
    ∃ d', ns.foldlM (fun d n => ofExcept (dictAdd d n (d.length + 1))) d = some d'
  | [], d, _ => ⟨d, rfl⟩
  | n :: ns, d, h => by
      have hn : fold n ∉ dnames d := by
        rw [List.map_cons] at h
        exact fun hm => (List.nodup_append.1 h).2.2 _ hm _ List.mem_cons_self rfl
      rw [List.foldlM_cons, dictAdd_new hn]
      refine cdict_names (d := d ++ [(n, d.length + 1)]) ?_
      rw [dnames, List.map_append, List.append_assoc]
      exact h

section Table

variable (sc : StringObject) (fcmp : List UInt8 → List UInt8 → Int) (runLua : Sds → Sds → Sds → Bool)
  {db : Db} {tmatch : Nat} {rt : RTbl}

theorem reads_loadCol {c : RCol} (h : c.type < 256) : Reads (loadCol sc) (saveCol sc c) (c.name, c.type) := by
  have hlen : Reads loadLen (rdbSaveLen c.type) c.type := reads_len (by unfold lenErr; omega)
  exact (sc.round c.name).bind (hlen.last (reads_pure _))

/-- The name of the index on the primary key of a table. -/
def RTbl.pkIndex (rt : RTbl) : Sds := pkIndexName rt.name ((rt.col.head?.map RCol.name).getD [])

/-- The table that is loaded, before its indexes. -/
def loadedTable (rt : RTbl) (btr : Bt Block) : RTbl where
  name := rt.name
  vimatch := rt.vimatch
  col := (rt.col.map fun c => (⟨c.name, c.type, false, -1⟩ : RCol)).modify 0 fun c =>
    { c with imatch := rt.vimatch, indxd := true }
  hashy := rt.hashy
  ilist := [rt.vimatch]
  nmci := 0
  fdict := []
  btr := btr

theorem table_reads (h : TableOk tmatch rt) (hT : fold rt.name ∉ dnames db.tblD)
    (hI : fold rt.pkIndex ∉ dnames db.indD) :
    ∃ bytes rt', saveTable sc tmatch rt = some bytes ∧ TableRestored rt rt' ∧ rt'.fdict = [] ∧
      Reads (rdbLoadBT sc fcmp runLua db) bytes
        ⟨upd db.tbl tmatch (some rt'), upd db.index rt.vimatch (some (pkIndex rt.pkIndex tmatch)),
          db.tblD ++ [(rt.name, tmatch + 1)], db.indD ++ [(rt.pkIndex, rt.vimatch + 1)]⟩ := by
  obtain ⟨c₀, k, hc₀, hk, hspec⟩ := h.pk
  obtain ⟨rows, B, hm, hn, hlt⟩ := h.rows
  obtain ⟨bytes, btr, hsave, hread, R⟩ := tree_restored fcmp hspec B hm hn
  have hcs : Reads (many (loadCol sc) rt.col.length) (rt.col.flatMap (saveCol sc))
      (rt.col.map fun c => (c.name, c.type)) := reads_many fun c hc => reads_loadCol sc (h.types c hc)
  have hnames : ∃ d, cdict ((rt.col.map fun c => (c.name, c.type)).map Prod.fst) = some d := by
    refine cdict_names ?_
    rw [dnames, List.map_nil, List.nil_append, List.map_map, List.map_map]
    exact h.names
  obtain ⟨d, hd⟩ := hnames
  have hktype : rt.btr.s.ktype = k := by
    rw [hspec]
    unfold dbtSpec
    split <;> try split
    all_goals rfl
  have hlast : (((rt.col.map fun c => (c.name, c.type)).getLast?.map Prod.snd).getD rt.col.length) < 256 := by
    cases hl : rt.col.getLast? with
    | none =>
        rw [List.getLast?_eq_none_iff.1 hl] at hc₀
        exact absurd hc₀ (by simp)
    | some c =>
        rw [List.getLast?_map, hl]
        exact h.types c (List.mem_of_getLast? hl)
  have htypes : ((rt.col.map fun c => (c.name, c.type)).map fun c => ctype (c.2 % 256)) =
      rt.col.map fun c => ctype c.type := by
    rw [List.map_map]
    refine List.map_congr_left fun c hc => ?_
    show ctype (c.type % 256) = _
    rw [Nat.mod_eq_of_lt (h.types c hc)]
  have hhashy : (UInt8.ofNat rt.hashy.toNat).toNat = rt.hashy.toNat := by
    cases rt.hashy <;> rfl
  have hkbyte : ctype ((UInt8.ofNat (typeCode rt.btr.s.ktype)).toNat % 256) = some k := by
    rw [hktype]
    cases k <;> rfl
  have hflag : (UInt8.ofNat rt.hashy.toNat).toNat < 256 := UInt8.toNat_lt _
  have hcols : rt.col.length < lenErr := lt_trans h.cols (by decide)
  have hnk : rt.btr.numkeys.toNat < lenErr := by
    rw [hn]
    exact hlt
  -- the columns of the table that is loaded
  have hcol : ((rt.col.map fun c => (c.name, c.type)).map fun c => (⟨c.1, c.2 % 256, false, -1⟩ : RCol)) =
      rt.col.map fun c => ⟨c.name, c.type, false, -1⟩ := by
    rw [List.map_map]
    refine List.map_congr_left fun c hc => ?_
    show (⟨c.name, c.type % 256, false, -1⟩ : RCol) = _
    rw [Nat.mod_eq_of_lt (h.types c hc)]
  have hhead : (rt.col.map fun c => (⟨c.name, c.type, false, -1⟩ : RCol)).head? =
      some ⟨c₀.name, c₀.type, false, -1⟩ := by
    rw [List.head?_map, hc₀]
    rfl
  have hpk : pkIndexName rt.name c₀.name = rt.pkIndex := by
    rw [RTbl.pkIndex, hc₀]
    rfl
  refine ⟨tableBytes sc tmatch rt bytes, loadedTable rt btr, ?_,
    ⟨rfl, ?_, rfl, rfl, R⟩, rfl, ?_⟩
  · rw [saveTable, hsave]
    rfl
  · obtain ⟨c, cs, hcons⟩ : ∃ c cs, rt.col = c :: cs := by
      cases hl : rt.col with
      | nil => rw [hl] at hc₀; exact absurd hc₀ (by simp)
      | cons c cs => exact ⟨c, cs, rfl⟩
    rw [loadedTable, hcons]
    simp [List.modify]
  · refine (reads_byte 0).bind ?_
    show Reads (loadLen >>= fun num => _) _ _
    refine (reads_len h.tmatch).bind ?_
    show Reads (loadTable sc fcmp db tmatch) _ _
    refine (reads_len h.vimatch).bind ((sc.round rt.name).bind ((reads_len hcols).bind (hcs.bind
      ((reads_orFail hd).step ?_))))
    rw [saveLen_bool]
    refine (reads_low hlast _).bind ((reads_low hflag _).bind ((reads_orFail hkbyte).step
      ((reads_len hnk).bind ?_)))
    rw [htypes, hcol]
    refine hread.last ((reads_orFail hhead).step ((reads_orFail (dictAdd_new hT)).step ?_))
    show Reads (orFail (ofExcept (dictAdd db.indD (pkIndexName rt.name c₀.name) _)) >>= _) _ _
    rw [hpk]
    refine (reads_orFail (dictAdd_new hI)).step ?_
    have hb : ((UInt8.ofNat rt.hashy.toNat).toNat != 0) = rt.hashy := by
      cases rt.hashy <;> rfl
    rw [hb]
    exact reads_pure _

end Table

/-! ## An index -/

section Marks

/-- The columns of a table, but for what is noted of their indexes. -/
def nameType (col : List RCol) : List (Sds × Nat) := col.map fun c => (c.name, c.type)

theorem nameType_modify (f : RCol → RCol) (hf : ∀ c, ((f c).name, (f c).type) = (c.name, c.type)) :
    ∀ (col : List RCol) (j : Nat), nameType (col.modify j f) = nameType col
  | [], _ => by simp [nameType]
  | c :: col, 0 => by simpa [nameType] using hf c
  | c :: col, j + 1 => by simpa [nameType] using nameType_modify f hf col j

theorem markIndxd_ok {n : Nat} {ic : Icol} (h : IcolOk n ic) {col : List RCol} (hn : col.length = n) :
    ∃ col', markIndxd col ic = some col' ∧ nameType col' = nameType col ∧ col'.length = n := by
  have h1 := h.low
  have h2 := h.high
  unfold markIndxd
  split_ifs with h0
  · exact ⟨col, rfl, rfl, hn⟩
  · obtain ⟨j, hj⟩ : ∃ j : Nat, ic.cmatch = j := ⟨ic.cmatch.toNat, by omega⟩
    rw [hj] at h2 ⊢
    have hj' : j < col.length := by omega
    exact ⟨_, if_pos hj', nameType_modify _ (by exact fun _ => rfl) col j, by rw [List.length_modify, hn]⟩

theorem markAll_ok {n : Nat} : ∀ {ics : List Icol} {col : List RCol}, (∀ ic ∈ ics, IcolOk n ic) →
    col.length = n → ∃ col', ics.foldlM markIndxd col = some col' ∧ nameType col' = nameType col
  | [], col, _, _ => ⟨col, rfl, rfl⟩
  | ic :: ics, col, h, hn => by
      obtain ⟨col₁, h₁, hc₁, hn₁⟩ := markIndxd_ok (h ic List.mem_cons_self) hn
      obtain ⟨col', h', hc'⟩ := markAll_ok (fun i hi => h i (List.mem_cons_of_mem _ hi)) hn₁
      exact ⟨col', by rw [List.foldlM_cons, h₁]; exact h', hc'.trans hc₁⟩

theorem nameType_setImatch (col : List RCol) (ic : Icol) (imatch : Nat) :
    nameType (setImatch col ic imatch) = nameType col := by
  unfold setImatch
  split_ifs
  · rfl
  · exact nameType_modify _ (by exact fun _ => rfl) col _

end Marks

section Index

variable (sc : StringObject) (fcmp : List UInt8 → List UInt8 → Int) (runLua : Sds → Sds → Sds → Bool)
  {db : Db} {tmatch imatch : Nat} {rt rt' : RTbl} {ri : RInd}

/-- What is written one higher: no number of a column is too high for that. -/
theorem incr_lt {n : Nat} {ic : Icol} (h : IcolOk n ic) (hn : n < 2147483648) :
    ((ic.cmatch + 1) % 4294967296).toNat < lenErr ∧
      (((ic.cmatch + 1) % 4294967296).toNat : Int) = ic.cmatch + 1 := by
  have h1 := h.low
  have h2 := h.high
  unfold lenErr
  omega

theorem icol_reads {n : Nat} {ic : Icol} (h : IcolOk n ic) (hn : n < 2147483648) :
    Reads (rdbLoadIcol sc) (rdbSaveIcol sc ic) ic := by
  obtain ⟨hlt, hval⟩ := incr_lt h hn
  have hlo : Reads (many sc.load ic.lo.length) (ic.lo.flatMap sc.save) (ic.lo.map id) :=
    reads_many fun s _ => sc.round s
  rw [List.map_id] at hlo
  refine (reads_len hlt).bind ((reads_len h.path).bind (hlo.last ?_))
  have hint : int32 ((((ic.cmatch + 1) % 4294967296).toNat : Int) - 1) = ic.cmatch := by
    have h1 := h.low
    have h2 := h.high
    rw [hval, int32]
    omega
  rw [hint]
  exact reads_pure ic

/-- The columns of an index. -/
theorem icols_reads (h : IndexOk runLua tmatch rt imatch ri) (hn : rt.col.length < 2147483648) :
    Reads (loadIcols sc) (saveIcols sc ri) (ri.icol, ri.clist) := by
  unfold saveIcols loadIcols
  cases hc : ri.clist with
  | none =>
      refine (reads_len (by decide)).bind ?_
      rw [if_pos rfl]
      exact (icol_reads sc h.icol hn).last (reads_pure _)
  | some l =>
      obtain ⟨h2, hlt, hhead, hics⟩ := h.clist l hc
      refine (reads_len hlt).bind ?_
      rw [if_neg (by omega)]
      have hl : Reads (many (rdbLoadIcol sc) l.length) (l.flatMap (rdbSaveIcol sc)) (l.map id) :=
        reads_many fun ic hi => icol_reads sc (hics ic hi).1 hn
      rw [List.map_id] at hl
      refine hl.last ?_
      rw [if_pos (List.all_eq_true.2 fun ic hi => decide_eq_true (hics ic hi).2), hhead]
      exact reads_pure _

theorem flagged_reads {flag : Option Sds} {strs : List Sds} {n : Nat} (h : flag = none → strs = [])
    (h' : flag ≠ none → strs.length = n) : Reads (loadFlagged sc n) (saveFlagged sc flag strs) strs := by
  unfold saveFlagged loadFlagged
  cases flag with
  | none =>
      refine (reads_len (n := 0) (by decide)).last ?_
      rw [if_pos rfl, h rfl]
      exact reads_pure []
  | some f =>
      refine (reads_len (n := 1) (by decide)).bind ?_
      rw [if_neg (by decide), ← h' (by simp)]
      have := reads_many (m := sc.load) (l := strs) (v := id) fun s _ => sc.round s
      rwa [List.map_id] at this

theorem indexTree_code {types : List Nat} {clist : Option (List Icol)} {cnstr dtype : Nat} {b : IndBt}
    (h : indexTree types clist cnstr dtype = some b) :
    (UInt8.ofNat (btypeCode b.btype)).toNat ≠ 255 ∧ (UInt8.ofNat (btypeCode b.btype)).toNat ≠ 0 := by
  have hb : b.btype = .mci ∨ b.btype = .simpUniq ∨ b.btype = .index := by
    unfold indexTree at h
    cases clist with
    | some l =>
        obtain ⟨ic, -, h⟩ := Option.bind_eq_some_iff.1 h
        obtain ⟨k, -, h⟩ := Option.bind_eq_some_iff.1 h
        exact .inl (Option.some.inj h ▸ rfl)
    | none =>
        simp only at h
        split_ifs at h
        · obtain ⟨k, -, h⟩ := Option.map_eq_some_iff.1 h
          exact .inr (.inl (h ▸ rfl))
        · exact .inr (.inr (Option.some.inj h ▸ rfl))
  rcases hb with h | h | h <;> rw [h] <;> decide

/-- A function index has a function and its constructor. -/
theorem IndexOk.strs (h : IndexOk runLua tmatch rt imatch ri) :
    (ri.fname = none ∧ ri.iconstrct = none) ∨ ∃ f c, ri.fname = some f ∧ ri.iconstrct = some c := by
  have hc := h.func
  cases hf : ri.fname with
  | none =>
      rw [hf] at hc
      exact .inl ⟨rfl, Option.isNone_iff_eq_none.1 (by simpa using hc.symm)⟩
  | some f =>
      rw [hf] at hc
      obtain ⟨c, hi⟩ := Option.isSome_iff_exists.1 hc.symm
      exact .inr ⟨f, c, rfl, hi⟩

/-- The columns of the loaded table are marked, and are the same for it. -/
theorem IndexOk.marked (h : IndexOk runLua tmatch rt imatch ri) (R : TableRestored rt rt') :
    ∃ col, (ri.clist.getD [ri.icol]).foldlM markIndxd rt'.col = some col ∧
      nameType col = nameType rt'.col := by
  have hlen : rt'.col.length = rt.col.length := by
    have := congrArg List.length R.cols
    rwa [List.length_map, List.length_map] at this
  refine markAll_ok (n := rt.col.length) (fun ic hic => ?_) hlen
  cases hc : ri.clist with
  | none =>
      rw [hc] at hic
      obtain rfl := List.mem_singleton.1 hic
      exact h.icol
  | some l =>
      rw [hc] at hic
      exact ((h.clist l hc).2.2.2 ic hic).1

/-- The index that is loaded. -/
def loadedIndex (ri : RInd) : RInd := { ri with virt := false, obc := ⟨ri.obc.cmatch, []⟩ }

/-- The table behind it. -/
def indexedTable (rt' : RTbl) (col : List RCol) (imatch : Nat) (ri : RInd) : RTbl :=
  { rt' with
    col := setImatch col ri.icol imatch
    ilist := rt'.ilist ++ [imatch]
    nmci := if ri.clist.isSome then rt'.nmci + 1 else rt'.nmci
    fdict := rt'.fdict ++ (ri.fname.map fun f => (f, imatch + 1)).toList }

theorem index_reads (h : IndexOk runLua tmatch rt imatch ri) (hT : TableOk tmatch rt)
    (hrt : db.tbl tmatch = some rt') (R : TableRestored rt rt')
    (hI : fold ri.name ∉ dnames db.indD)
    (hF : ∀ f, ri.fname = some f → fold f ∉ dnames rt'.fdict) :
    ∃ rt'' ri', TableRestored rt rt'' ∧ IndexRestored ri ri' ∧
      dnames rt''.fdict = dnames rt'.fdict ++ (ri.fname.map fold).toList ∧
      Reads (rdbLoadBT sc fcmp runLua db) (indexBytes sc imatch ri)
        ⟨upd db.tbl tmatch (some rt''), upd db.index imatch (some ri'), db.tblD,
          db.indD ++ [(ri.name, imatch + 1)]⟩ := by
  obtain ⟨hb, htree⟩ := h.tree
  obtain ⟨b, hbtr⟩ := Option.ne_none_iff_exists'.1 hb
  have htypes : rt'.col.map RCol.type = rt.col.map RCol.type := by
    have := congrArg (List.map Prod.snd) R.cols
    rwa [List.map_map, List.map_map] at this
  obtain ⟨col, hmark, hcol⟩ := h.marked runLua R
  obtain ⟨hobc, hobcv⟩ := incr_lt h.obc hT.cols
  obtain ⟨h255, h0⟩ := indexTree_code (htree.trans hbtr)
  refine ⟨indexedTable rt' col imatch ri, loadedIndex ri, ⟨R.name, ?_, R.hashy, R.vimatch, R.tree⟩,
    ⟨rfl, rfl, rfl, rfl, rfl, rfl, rfl, rfl, rfl, rfl, rfl, rfl, rfl⟩, ?_, ?_⟩
  · exact (nameType_setImatch col ri.icol imatch).trans (hcol.trans R.cols)
  · rw [indexedTable, dnames, dnames, List.map_append]
    cases ri.fname <;> rfl
  unfold indexBytes
  rw [hbtr]
  refine (reads_byte _).bind ?_
  rw [if_neg h255]
  refine (reads_len h.imatch).bind ?_
  rw [if_neg h0]
  refine (sc.round ri.name).bind ?_
  rw [h.tmatch]
  refine (reads_len hT.tmatch).bind ((reads_orFail hrt).step ((icols_reads sc runLua h hT.cols).bind
    ((reads_orFail hmark).step ?_)))
  have hbool : ∀ b : Bool, Reads loadLen (rdbSaveLen b.toNat) b.toNat := fun b =>
    reads_len (by cases b <;> decide)
  have hsmall : ∀ {n : Nat}, n < 256 → n < lenErr := fun h => lt_trans h (by decide)
  refine (reads_len (hsmall h.cnstr)).bind ((hbool ri.lru).bind ((hbool ri.lfu).bind
    ((reads_len hobc).bind ((reads_len (hsmall h.dtype)).bind ?_))))
  have hint : int32 (((ri.obc.cmatch + 1) % 4294967296).toNat : Int) - 1 = ri.obc.cmatch := by
    have h1 := h.obc.low
    have h2 := h.obc.high
    have h3 := hT.cols
    rw [hobcv, int32]
    omega
  have hidx : Reads (loadFlagged sc 1) (saveFlagged sc ri.idestrct ri.idestrct.toList)
      ri.idestrct.toList := by
    refine flagged_reads sc (fun h => by rw [h]; rfl) fun h => ?_
    obtain ⟨g, hg⟩ := Option.ne_none_iff_exists'.1 h
    rw [hg]
    rfl
  have hrest : indexTree (rt'.col.map RCol.type) ri.clist (ri.cnstr % 256) (ri.dtype % 256) = some b := by
    rw [htypes, Nat.mod_eq_of_lt h.cnstr, Nat.mod_eq_of_lt h.dtype, htree, hbtr]
  have hbit : ∀ b : Bool, (b.toNat != 0) = b := fun b => by cases b <;> rfl
  have hlua : ((ri.fname.toList ++ ri.iconstrct.toList)[1]?.map fun c => runLua c rt'.name ri.name).getD true
      = true := by
    rcases h.strs with ⟨hf, hi⟩ | ⟨f, c, hf, hi⟩
    · rw [hf, hi]
      rfl
    · rw [hf, hi, R.name]
      exact h.lua c hi
  have hstrs : Reads (loadFlagged sc 2)
      (saveFlagged sc ri.fname (ri.fname.toList ++ ri.iconstrct.toList))
      (ri.fname.toList ++ ri.iconstrct.toList) := by
    rcases h.strs with ⟨hf, hi⟩ | ⟨f, c, hf, hi⟩
    · rw [hf, hi]
      exact flagged_reads sc (fun _ => rfl) fun h => absurd rfl h
    · rw [hf, hi]
      exact flagged_reads sc (fun h => absurd h (by simp)) fun _ => rfl
  have hfirst : (ri.fname.toList ++ ri.iconstrct.toList).head? = ri.fname ∧
      (ri.fname.toList ++ ri.iconstrct.toList)[1]? = ri.iconstrct := by
    rcases h.strs with ⟨hf, hi⟩ | ⟨f, c, hf, hi⟩ <;> rw [hf, hi] <;> exact ⟨rfl, rfl⟩
  have hfunc : addFunc rt'.fdict imatch (ri.fname.toList ++ ri.iconstrct.toList) =
      some (rt'.fdict ++ (ri.fname.map fun f => (f, imatch + 1)).toList) := by
    rcases h.strs with ⟨hf, hi⟩ | ⟨f, c, hf, hi⟩
    · rw [hf, hi]
      simp [addFunc]
    · have hnew := dictAdd_new (v := imatch + 1) (hF f hf)
      rw [hf, hi]
      unfold dictAdd at hnew
      show (if _ then _ else _) = _
      split_ifs at hnew ⊢
      · exact absurd hnew (by simp [ofExcept])
      · rfl
  refine hstrs.bind ((reads_orFail hfunc).step (hidx.bind ((reads_byte _).last
    ((reads_orFail hrest).step ((reads_orFail (dictAdd_new hI)).step
      ((reads_orFail (if_pos hlua)).step ?_))))))
  rw [hint, hbit, hbit, Nat.mod_eq_of_lt h.cnstr, Nat.mod_eq_of_lt h.dtype, Option.head?_toList, ← hbtr,
    hfirst.1, hfirst.2, ← h.tmatch]
  exact reads_pure _

end Index

end AlchemyDB.Rdb
