import Alpine.Spec.Blob

/-! `nlplug-findfs` of mkinitfs: the devices that cryptsetup waits for, and the messages of the kernel. -/

namespace Alpine

/-- `struct cryptdev` -/
structure CryptDev where
  device : Option Bytes
  devnode : Bytes

/-- the devices of `struct cryptconf` -/
structure CryptConf where
  data : CryptDev
  key : CryptDev
  header : CryptDev

/-- what the system answers to a call of `searchdev`: whether the device is that of the event, its
tags, and what is found on it -/
structure DeviceAnswers where
  isSameDevice : Bool
  type : Option Bytes
  uuid : Option Bytes
  partuuid : Option Bytes
  label : Option Bytes
  scandev : ℤ

/-- `struct uevent` with the answers to the calls of `searchdev` it leads to, and the pipe that a
command for the key is given -/
structure BlockEvent where
  subsystem : Option Bytes
  action : Bytes
  devname : Bytes
  answers : ℕ → DeviceAnswers
  pipefd : ℕ

/-- `ueventconf`; `starts` holds the devices of every call of `start_cryptsetup` -/
structure FindConf where
  searchDevice : Option Bytes
  scanbootmedia : Bool
  crypt : CryptConf
  starts : List CryptConf

def foundDevice : ℤ := 1

def isZfsPool (path label : Bytes) : ℤ :=
  if label = (path.take 255).takeWhile (· ≠ asc '/') then foundDevice else 0

/-- a tag that is searched for by its value -/
def searchTag (s : Bytes) (a : DeviceAnswers) : ℤ :=
  if (lit "LABEL=").isPrefixOf s then if a.label = some (s.drop 6) then foundDevice else 0
  else if (lit "UUID=").isPrefixOf s then if a.uuid = some (s.drop 5) then foundDevice else 0
  else if (lit "PARTUUID=").isPrefixOf s then if a.partuuid = some (s.drop 9) then foundDevice else 0
  else 0

def searchdev (a : DeviceAnswers) (devname devnode : Bytes) (search : Option Bytes) (scanbootmedia : Bool) : ℤ :=
  if search = none ∧ !scanbootmedia then 0
  else if search.any fun s => devname == s || devnode == s || a.isSameDevice then foundDevice
  else
    let rc := search.elim 0 fun s => searchTag s a
    if rc ≠ 0 then rc
    else
      match a.type with
      | none => 0
      | some type =>
        -- a member of a raid or a volume group starts a command
        if type = lit "linux_raid_member" ∨ type = lit "LVM2_member" then 0
        else if type = lit "zfs_member" then
          match search, a.label with
          | some s, some label => if (lit "ZFS=").isPrefixOf s then isZfsPool (s.drop 4) label else 0
          | _, _ => 0
        else if scanbootmedia then a.scandev else 0

/-- a round of the loop of `search_cryptdevs`; the text that is copied has 256 bytes at most -/
def CryptDev.search (a : DeviceAnswers) (devname devnode : Bytes) (d : CryptDev) : CryptDev × Bool :=
  if d.devnode = [] ∧ searchdev a devname devnode d.device false ≠ 0 then
    let device := d.device.getD []
    ({ d with devnode := (if device.head? = some (asc '/') then device else devnode).take 256 }, true)
  else (d, false)

def CryptConf.ready (c : CryptConf) : Bool :=
  decide (c.data.devnode ≠ []) && (c.header.device.isNone || decide (c.header.devnode ≠ [])) &&
    (c.key.device.isNone || decide (c.key.devnode ≠ []))

def searchCryptdevs (answers : ℕ → DeviceAnswers) (devname devnode : Bytes) (c : CryptConf) : Bool × CryptConf :=
  let data := c.data.search (answers 1) devname devnode
  let key := c.key.search (answers 2) devname devnode
  let header := c.header.search (answers 3) devname devnode
  let c := ⟨data.1, key.1, header.1⟩
  ((data.2 || key.2 || header.2) && c.ready, c)

/-- a key that a command gives out is read from a pipe -/
def startCryptsetup (pipefd : ℕ) (conf : FindConf) : FindConf :=
  let key := conf.crypt.key
  let key := if (lit "EXEC=").isPrefixOf (key.device.getD []) then
      { key with devnode := (lit "/proc/self/fd/" ++ ascs (Nat.repr pipefd).toList).take 255 }
    else key
  { conf with crypt := { conf.crypt with key := key }, starts := conf.starts ++ [conf.crypt] }

def ueventHandle (conf : FindConf) (ev : BlockEvent) : FindConf :=
  if ev.subsystem ≠ some (lit "block") then conf
  else if ev.action ≠ lit "add" ∧ ev.action ≠ lit "change" then conf
  else
    let devnode := (lit "/dev/" ++ ev.devname).take 255
    if searchdev (ev.answers 0) ev.devname devnode conf.searchDevice conf.scanbootmedia ≠ 0 then conf
    else
      let r := searchCryptdevs ev.answers ev.devname devnode conf.crypt
      let conf := { conf with crypt := r.2 }
      if r.1 then startCryptsetup ev.pipefd conf else conf

/-- `struct uevent` as `uevent_process` fills it in -/
structure Uevent where
  message : Option Bytes := none
  subsystem : Option Bytes := none
  action : Option Bytes := none
  modalias : Option Bytes := none
  devname : Option Bytes := none
  devpath : Option Bytes := none
  major : Option Bytes := none
  minor : Option Bytes := none
  envp : List (Option Bytes)
  nenvp : ℕ

/-- `ev->envp[nenvp++]`; there is none behind the array -/
def Uevent.push (ev : Uevent) (entry : Option Bytes) : Option Uevent :=
  if ev.nenvp < 64 then some { ev with envp := ev.envp.set ev.nenvp entry, nenvp := ev.nenvp + 1 } else none

def Uevent.note (ev : Uevent) (key value : Bytes) : Uevent :=
  if (lit "MODALIAS=").isPrefixOf key then { ev with modalias := some value }
  else if (lit "ACTION=").isPrefixOf key then { ev with action := some value }
  else if (lit "SUBSYSTEM=").isPrefixOf key then { ev with subsystem := some value }
  else if (lit "DEVNAME=").isPrefixOf key then { ev with devname := some value }
  else if (lit "DEVPATH=").isPrefixOf key then { ev with devpath := some value }
  else if (lit "MAJOR=").isPrefixOf key then { ev with major := some value }
  else if (lit "MINOR=").isPrefixOf key then { ev with minor := some value }
  else ev

def ueventVar (key : Bytes) (ev : Uevent) : Option Uevent :=
  if key = [] ∨ asc '=' ∉ key then some ev
  else
    let ev := ev.note key (key.dropWhile (· ≠ asc '=')).tail
    if (lit "PATH=").isPrefixOf key then some ev else ev.push (some key)

/-- the loop of `uevent_process` from a byte of the copied message on; a string without an end is
read beyond the copy -/
def ueventLoop : ℕ → Bool → Bytes → Uevent → Option Uevent
  | 0, _, _, ev => some ev
  | n + 1, first, buf, ev =>
    if buf = [] then some ev
    else if 0 ∉ buf then none
    else
      let key := cstr buf
      let buf := buf.drop (key.length + 1)
      if first ∧ key ≠ [] then ueventLoop n false buf { ev with message := some key }
      else (ueventVar key ev).bind (ueventLoop n false buf)

/-- `uevent_process` up to the dispatch, with `default_envp[0]`: no result where it leaves the copy of
the message or `envp` -/
def ueventProcess (path : Option Bytes) (buf : Bytes) : Option Uevent :=
  (ueventLoop buf.length true buf { envp := path :: List.replicate 63 none, nenvp := 1 }).bind (·.push none)

end Alpine
