import RootHelper.Listings

/-!
What a listing says of a directory: the client reads the answer by a grammar of its own and finds an
entry for each child. The permissions of a link are written one byte too far behind.
-/

set_option autoImplicit false

namespace RootHelper
open Posix Control

variable {ε : Type}

def takeBytes (n : Nat) (s : Str) : Option (Str × Str) :=
  if n ≤ s.length then some (s.take n,s.drop n) else none

def readEntry (s : Str) : Option (ls_resp_t × Str) := do
  let (len,s) ← takeBytes 2 s
  let (filename,s) ← takeBytes (fromLittleEndian len) s
  let (date,s) ← takeBytes 4 s
  let (permissions,s) ← takeBytes 10 s
  let (size,s) ← takeBytes 8 s
  some (⟨filename,.ofNat (fromLittleEndian date),permissions,.ofNat (fromLittleEndian size)⟩,s)

/-- Entries up to one terminator, with nothing behind it. -/
def readLsEntries : Nat → Str → Option (List ls_resp_t)
  | 0, _ => none
  | turns+1, s =>
    if s.take 2 = [0,0] then if s.length = 2 then some [] else none
    else do
      let (entry,s) ← readEntry s
      let entries ← readLsEntries turns s
      some (entry :: entries)

def readListing (s : Str) : Option (List ls_resp_t) := readLsEntries (s.length + 1) s

/-- A redirect tells the path before the entries. -/
def readReply (s : Str) : Option (List ls_resp_t) :=
  if s.head? = some RESPONSE_OK then readListing s.tail
  else if s.head? = some RESPONSE_REDIRECT then
    readListing (s.tail.drop (2 + fromLittleEndian (s.tail.take 2)))
  else none

section Entries

variable (v : View) (path : Str)

def typeLetter (st : Stat) : Byte :=
  match st.kind with
  | .file => 45
  | .dir => 100
  | .link => if ∃ st', v.stat path = some st' ∧ st'.kind = .dir then 76 else 108

/-- The nine flags of the mode, from the highest bit on. -/
def modeLetters (mode : Nat) : Str :=
  (List.range 9).map fun i =>
    if mode.testBit (8 - i) then (text ['r','w','x']).getD (i % 3) 0 else 45

/-- The entry shows the child as it is, and its permissions were not written outside their field. -/
structure ShowsChild (c : Name) (e : ls_resp_t) : Prop where
  name : e.filename = c
  metadata : ∃ st, v.lstat path = some st ∧ (e.date.toNat : Int) = st.mtime % 2^32 ∧ e.size = st.size ∧
    e.permissions = typeLetter v path st :: modeLetters st.mode ∧
    ∀ w ∈ Metadata.permissionWrites v path st, w.1 < 10

end Entries

/-- The answer reads as one entry for each name. -/
def ListsChildren (v : View) (dirpath : Str) (names : List Name) (reply : Str) : Prop :=
  ∃ es es', readReply reply = some es ∧ es.Perm es' ∧
    List.Forall₂ (fun c e => ShowsChild v (dirpath ++ slash :: c) c e) names es'

section Permissions

variable {v : View} {path : Str} {st : Stat}

theorem getPermissions_of_not_link (h : st.kind ≠ .link) :
    Metadata.getPermissions v path st = typeLetter v path st :: modeLetters st.mode := by
  have hletters : modeLetters st.mode = [Metadata.letter st.mode 8 'r',Metadata.letter st.mode 7 'w',
      Metadata.letter st.mode 6 'x',Metadata.letter st.mode 5 'r',Metadata.letter st.mode 4 'w',
      Metadata.letter st.mode 3 'x',Metadata.letter st.mode 2 'r',Metadata.letter st.mode 1 'w',
      Metadata.letter st.mode 0 'x'] := rfl
  rw [hletters,typeLetter]
  unfold Metadata.getPermissions Metadata.permissionWrites
  cases hkind : st.kind with
  | file => rfl
  | dir => rfl
  | link => exact absurd hkind h

theorem permissionWrites_inside :
    (∀ w ∈ Metadata.permissionWrites v path st, w.1 < 10) ↔ st.kind ≠ .link := by
  unfold Metadata.permissionWrites
  cases st.kind <;> simp

end Permissions

section Back

variable {e : ls_resp_t} {es : List ls_resp_t}

theorem takeBytes_append {n : Nat} {a : Str} (h : a.length = n) (s : Str) :
    takeBytes n (a ++ s) = some (a,s) := by
  rw [takeBytes,if_pos (by rw [List.length_append]; omega),List.take_left' h,List.drop_left' h]

theorem readEntry_bytes (h : e.Fits) (rest : Str) : readEntry (e.bytes ++ rest) = some (e,rest) := by
  obtain ⟨-,hlen,hperm⟩ := h
  have hname : e.filename.length = fromLittleEndian (littleEndian 2 e.filename.length) := by
    rw [fromLittleEndian_littleEndian]
    exact (Nat.mod_eq_of_lt hlen).symm
  have hdate : fromLittleEndian (littleEndian 4 e.date.toNat) = e.date.toNat := by
    rw [fromLittleEndian_littleEndian]
    exact Nat.mod_eq_of_lt e.date.toNat_lt
  have hsize : fromLittleEndian (littleEndian 8 e.size.toNat) = e.size.toNat := by
    rw [fromLittleEndian_littleEndian]
    exact Nat.mod_eq_of_lt e.size.toNat_lt
  simp only [readEntry,ls_resp_t.bytes,List.append_assoc,takeBytes_append (length_littleEndian 2 _),
    takeBytes_append hname,takeBytes_append (length_littleEndian 4 _),takeBytes_append hperm,
    takeBytes_append (length_littleEndian 8 _),Option.bind_eq_bind,Option.bind_some,hdate,hsize,
    UInt32.ofNat_toNat,UInt64.ofNat_toNat]

theorem readLsEntries_listing (hfits : ∀ e ∈ es, e.Fits) {turns : Nat} (hturns : es.length < turns) :
    readLsEntries turns (listing es) = some es := by
  induction es generalizing turns with
  | nil =>
    obtain ⟨turns,rfl⟩ := Nat.exists_eq_add_of_lt hturns
    rfl
  | cons e es ih =>
    cases turns with
    | zero => simp at hturns
    | succ turns =>
      have he := hfits e List.mem_cons_self
      have hsplit : listing (e :: es) = e.bytes ++ listing es := by simp [listing]
      have hfront : (e.bytes ++ listing es).take 2 = littleEndian 2 e.filename.length := by
        rw [ls_resp_t.bytes,List.append_assoc]
        exact List.take_left' (length_littleEndian _ _)
      have hne : littleEndian 2 e.filename.length ≠ [0,0] := by
        intro h0
        have hread := congrArg fromLittleEndian h0
        have hpow : 256^2 = 65536 := rfl
        rw [fromLittleEndian_littleEndian,hpow,Nat.mod_eq_of_lt he.2.1] at hread
        exact he.1 (List.length_eq_zero_iff.mp hread)
      rw [hsplit,readLsEntries,hfront,if_neg hne,readEntry_bytes he]
      simp only [Option.bind_eq_bind,Option.bind_some]
      rw [ih (fun e he => hfits e (List.mem_cons_of_mem _ he)) (by simpa using hturns)]
      rfl

theorem readListing_listing (hfits : ∀ e ∈ es, e.Fits) : readListing (listing es) = some es := by
  refine readLsEntries_listing hfits ?_
  have hlong : ∀ l : List ls_resp_t, l.length ≤ (l.flatMap ls_resp_t.bytes).length := by
    intro l
    induction l with
    | nil => simp
    | cons e l ih =>
      have hbytes : 1 ≤ e.bytes.length := by
        rw [ls_resp_t.bytes,List.length_append,length_littleEndian]
        omega
      rw [List.flatMap_cons,List.length_append,List.length_cons]
      omega
  have hes := hlong es
  rw [listing,List.length_append]
  omega

end Back

section Children

variable {v : View} {dirpath homePath path : Str} {names : List Name} {it : readdirIterator}
  {access : Str → Bool} {errno : Nat}

theorem entries_plain (h : it.recursiveListing = .PLAIN) : it.entries v = it.S := by
  have hopened : ∀ path, it.opened v path = none := fun path => by
    simp [readdirIterator.opened,readdirIterator.descends,h]
  have hbelow : ∀ depth e, it.below v depth e = [e] := fun depth e => by
    cases depth <;> simp [readdirIterator.below,hopened]
  rw [readdirIterator.entries]
  simp only [hbelow]
  exact List.flatMap_singleton' it.S

def childEntry (v : View) (dirpath : Str) (c : Name) : Option ls_resp_t :=
  assemble_ls_resp_from_filepath v (dirpath ++ slash :: c) c

theorem listed_plain (habs : absolute dirpath) (hopen : v.opendir dirpath = some names) :
    listed v dirpath = some (names.reverse.filterMap (childEntry v dirpath)) := by
  obtain ⟨it,hit⟩ := Option.isSome_iff_exists.mp
    ((@readdirIterator.createIterator_isSome v dirpath .FULL .PLAIN false false).mpr ⟨habs,_,hopen⟩)
  obtain ⟨-,names',hopen',rfl⟩ := readdirIterator.createIterator_eq_some hit
  rw [hopen] at hopen'
  obtain rfl := Option.some.inj hopen'
  rw [listed,hit,Option.map_some,sent,readdirIterator.items,entries_plain rfl]
  have hkeep : names.filter (filterMatch false) = names :=
    List.filter_eq_self.mpr fun c _ => rfl
  simp only [readdirIterator.level,hkeep,Bool.false_eq_true,if_false]
  rw [List.filterMap_map,← List.map_reverse,List.filterMap_map]
  rfl

theorem listed_relative (h : ¬ absolute dirpath) : listed v dirpath = none := by
  rw [listed,readdirIterator.createIterator,if_pos h]
  rfl

/-- An entry is made of a child that can be looked at, and is right unless it is a link. -/
theorem childEntry_shows {c : Name} {st : Stat} (hst : v.lstat (dirpath ++ slash :: c) = some st)
    (hkind : st.kind ≠ .link) :
    ∃ e, childEntry v dirpath c = some e ∧ ShowsChild v (dirpath ++ slash :: c) c e := by
  refine ⟨_,by rw [childEntry,assemble_ls_resp_from_filepath,hst]; rfl,rfl,st,hst,?_,rfl,
    getPermissions_of_not_link hkind,permissionWrites_inside.mpr hkind⟩
  simp only [UInt32.ofInt,UInt32.toNat_ofNat',Nat.reducePow]
  omega

theorem readReply_ok {es : List ls_resp_t} (hfits : ∀ e ∈ es, e.Fits) :
    readReply (RESPONSE_OK :: listing es) = some es := by
  have hok : (RESPONSE_OK :: listing es).head? = some RESPONSE_OK := rfl
  rw [readReply,if_pos hok]
  exact readListing_listing hfits

theorem readReply_redirect {es : List ls_resp_t} (hfits : ∀ e ∈ es, e.Fits) (homePath : Str) :
    readReply (RESPONSE_REDIRECT :: stringBytes (cutString homePath) ++ listing es) = some es := by
  have hlt : (cutString homePath).length < 65536 := by
    rw [length_cutString]
    exact Nat.mod_lt _ (by decide)
  have htail : (RESPONSE_REDIRECT :: stringBytes (cutString homePath) ++ listing es).tail =
      littleEndian 2 (cutString homePath).length ++ (cutString homePath ++ listing es) := by
    simp [stringBytes]
  have hread : fromLittleEndian (littleEndian 2 (cutString homePath).length) =
      (cutString homePath).length := by
    rw [fromLittleEndian_littleEndian]
    exact Nat.mod_eq_of_lt hlt
  have hhead : (RESPONSE_REDIRECT :: stringBytes (cutString homePath) ++ listing es).head? =
      some RESPONSE_REDIRECT := rfl
  have hno : some RESPONSE_REDIRECT ≠ some RESPONSE_OK := by decide
  rw [readReply,hhead,if_neg hno,if_pos rfl,htail,List.take_left' (length_littleEndian _ _),hread,
    ← List.append_assoc,List.drop_left' (by simp)]
  exact readListing_listing hfits

variable (hnames : NamesFit v) (haccess : access (if path = [] then homePath else path) = false)
  (hopen : v.opendir (if path = [] then homePath else path) = some names)
include hnames haccess hopen

theorem readReply_lsReply (habs : absolute (if path = [] then homePath else path)) :
    readReply (lsReply v homePath access errno lsRequest path) =
      some (names.reverse.filterMap (childEntry v (if path = [] then homePath else path))) := by
  have hlisted := listed_plain habs hopen
  have hfits := fits_of_listed hnames hlisted
  rw [lsReply,if_neg (by decide)]
  simp only [haccess,hlisted,Bool.false_eq_true,if_false]
  by_cases hpath : path = []
  · rw [if_pos hpath]
    exact readReply_redirect hfits homePath
  · rw [if_neg hpath]
    exact readReply_ok hfits

theorem listsChildren_iff :
    ListsChildren v (if path = [] then homePath else path) names
        (lsReply v homePath access errno lsRequest path) ↔
      absolute (if path = [] then homePath else path) ∧ ∀ c ∈ names, ∃ st,
        v.lstat ((if path = [] then homePath else path) ++ slash :: c) = some st ∧ st.kind ≠ .link := by
  constructor
  · rintro ⟨es,es',hread,hperm,hall⟩
    refine ⟨?_,fun c hc => ?_⟩
    · by_contra habs
      have hreply : lsReply v homePath access errno lsRequest path =
          RESPONSE_ERROR :: littleEndian 4 errno := by
        rw [lsReply,if_neg (by decide)]
        simp only [haccess,listed_relative habs,Bool.false_eq_true,if_false]
      rw [hreply] at hread
      exact absurd hread (by simp [readReply,RESPONSE_ERROR,RESPONSE_OK,RESPONSE_REDIRECT])
    · obtain ⟨i,hi,rfl⟩ := List.getElem_of_mem hc
      obtain ⟨st,hst,-,-,-,hinside⟩ := (hall.get hi (hall.length_eq ▸ hi)).metadata
      exact ⟨st,hst,permissionWrites_inside.mp hinside⟩
  · rintro ⟨habs,hchildren⟩
    have hentries : ∀ c ∈ names, ∃ e,
        childEntry v (if path = [] then homePath else path) c = some e ∧
          ShowsChild v ((if path = [] then homePath else path) ++ slash :: c) c e := fun c hc => by
      obtain ⟨st,hst,hkind⟩ := hchildren c hc
      exact childEntry_shows hst hkind
    refine ⟨_,names.filterMap (childEntry v _),readReply_lsReply hnames haccess hopen habs,
      (List.reverse_perm names).filterMap _,?_⟩
    clear hchildren haccess hopen
    induction names with
    | nil => exact .nil
    | cons c names ih =>
      obtain ⟨e,he,hshows⟩ := hentries c List.mem_cons_self
      rw [List.filterMap_cons_some he]
      exact .cons hshows (ih fun c hc => hentries c (List.mem_cons_of_mem _ hc))

end Children

section Run

variable {α β γ δ : Type} {net : Network ε α β γ δ} {v : View} {homePath path : Str}
  {access : Str → Bool} {errno : Nat} {names : List Name} {next out : Str} {s : Ways α β γ δ}

theorem wp_listDir_reply (hcomplete : net.fromServer.Complete) (hnames : NamesFit v)
    (hs : net.Holds s ⟨next,out,[],[],[]⟩) :
    wp (listDir net.server v homePath access errno path)
      (fun _ t => net.fromServer.content t.fromServer =
        lsReply v homePath access errno lsRequest path) (fun _ _ => False) s := by
  have hflags : lsRequest.flags = 0 := rfl
  exact wp_mono (wp_listDir (Network.writes_fromServer net ⟨next,out,[],[],[]⟩)
    (server_completes hcomplete ⟨next,out,[],[],[]⟩) hnames hflags hs)
    (fun _ _ ht => ht.2.2.2.1) fun _ _ h => h

/-- What the server has written reads as one right entry for each child, when the directory has an
absolute path and every child can be looked at and is not a link. -/
theorem listDir_children (hcomplete : net.fromServer.Complete) (hnames : NamesFit v)
    (haccess : access (if path = [] then homePath else path) = false)
    (hopen : v.opendir (if path = [] then homePath else path) = some names)
    (hs : net.Holds s ⟨next,out,[],[],[]⟩) :
    wp (listDir net.server v homePath access errno path)
      (fun _ t => ListsChildren v (if path = [] then homePath else path) names
          (net.fromServer.content t.fromServer) ↔
        absolute (if path = [] then homePath else path) ∧ ∀ c ∈ names, ∃ st,
          v.lstat ((if path = [] then homePath else path) ++ slash :: c) = some st ∧ st.kind ≠ .link)
      (fun _ _ => False) s := by
  refine wp_mono (wp_listDir_reply hcomplete hnames hs) (fun _ t ht => ?_) fun _ _ h => h
  rw [ht]
  exact listsChildren_iff hnames haccess hopen

end Run

theorem namesFit_smallDirectory : NamesFit smallDirectory := by
  intro s names h c hc
  have hnames : names = [[120]] := by
    change (if s = [47,100] then some [[120]] else none) = some names at h
    split_ifs at h
    exact (Option.some.inj h).symm
  subst hnames
  obtain rfl := List.mem_singleton.mp hc
  decide

theorem listDir_children_file :
    wp (listDir wholeWays.server smallDirectory [47,100] (fun _ => false) 2 [47,100])
      (fun _ t => ListsChildren smallDirectory [47,100] [[120]]
          (wholeWays.fromServer.content t.fromServer) ↔
        absolute [47,100] ∧ ∀ c ∈ [[120]], ∃ st,
          smallDirectory.lstat ([47,100] ++ slash :: c) = some st ∧ st.kind ≠ .link)
      (fun _ _ => False) ⟨[],[],[],[],[]⟩ :=
  @listDir_children Stop Str Str Str Str wholeWays smallDirectory [47,100] [47,100] (fun _ => false) 2
    [[120]] [] [] ⟨[],[],[],[],[]⟩ (fun buf s => ⟨s ++ buf,rfl,rfl⟩) namesFit_smallDirectory rfl rfl
    ⟨rfl,rfl,rfl,rfl,rfl⟩

/-- In place of the file there is a link. -/
def linkDirectory : View := {
  smallDirectory with
  lstat := fun s => if s = [47,100,47,120] then some ⟨.link,0o777,0,0,3,0,7,0⟩ else none }

/-- The entry of a link is not right. -/
theorem listDir_children_link :
    ¬ wp (listDir wholeWays.server linkDirectory [47,100] (fun _ => false) 2 [47,100])
      (fun _ t => ListsChildren linkDirectory [47,100] [[120]]
        (wholeWays.fromServer.content t.fromServer)) (fun _ _ => False) ⟨[],[],[],[],[]⟩ := by
  intro h
  have hreply := @wp_listDir_reply Stop Str Str Str Str wholeWays linkDirectory [47,100] [47,100]
    (fun _ => false) 2 [] [] ⟨[],[],[],[],[]⟩ (fun buf s => ⟨s ++ buf,rfl,rfl⟩)
    namesFit_smallDirectory ⟨rfl,rfl,rfl,rfl,rfl⟩
  have hno : ¬ ListsChildren linkDirectory [47,100] [[120]]
      (lsReply linkDirectory [47,100] (fun _ => false) 2 lsRequest [47,100]) := fun hlists => by
    obtain ⟨st,hst,hkind⟩ := ((@listsChildren_iff linkDirectory [47,100] [47,100] [[120]]
      (fun _ => false) 2 namesFit_smallDirectory rfl rfl).mp hlists).2 [120] (by decide)
    obtain rfl := Option.some.inj hst
    exact hkind rfl
  obtain ⟨_,t,_,hlists,ht⟩ := ok_of_wp (wp_mono (wp_and h hreply) (fun _ _ h => h) fun _ _ h => h.1)
  exact hno (ht ▸ hlists)

end RootHelper
