import Patchwork.Fault

/-!
# Released binaries

Binaries are taken from the newest release that has any, and each one goes to the
directory that its name asks for.
-/

namespace Patchwork

/-- A file of a release, as far as it is described. -/
structure Asset where
  url : Option String
  name : Option String

/-- A release, as far as it is described. -/
structure Release where
  tag : Option String
  assets : List Asset
  /-- Whether it is described at all. -/
  isRecord : Bool := true

/-- The system on which the download runs. -/
inductive HostSystem where
  | posix
  | windows
  | other
  deriving Repr, DecidableEq

structure WebRequest where
  url : String
  agent : String := "Python"
  /-- How long an answer is waited for, in seconds. -/
  timeout : Nat

/-- What a download has done so far. -/
structure Download where
  output : String := ""
  requests : List WebRequest := []
  files : List (String × String) := []
  fault : Option Fault := none

namespace Download

def say (d : Download) (line : String) : Download := { d with output := d.output ++ line ++ "\n" }

def request (d : Download) (url : String) (timeout : Nat) : Download :=
  { d with requests := d.requests ++ [{ url, timeout }] }

/-- Writes a file; it takes the place of an earlier one. -/
def save (d : Download) (path content : String) : Download :=
  { d with files := d.files.filter (fun f => f.1 != path) ++ [(path, content)] }

def fail (d : Download) (f : Fault) : Download := { d with fault := some f }

end Download

namespace Release

def listUrl : String := "https://api.github.com/repos/Nonannet/copapy/releases"

def directory? (system : HostSystem) (name : String) : Option String :=
  if name.startsWith "stencils_" then some "src/copapy/obj"
  else if name.startsWith "musl_" then some "build/musl"
  else if name == "coparun.exe" && system = .windows then some "build/runner"
  else if name == "coparun" && system = .posix then some "build/runner"
  else if name.startsWith "coparun-" then some "build/runner"
  else none

def choose (d : Download) : List Release → Except Download (Download × List Asset)
  | [] => .error (d.fail (.violated .someAsset))
  | r :: rest =>
    if r.isRecord then
      match r.tag with
      | none => .error (d.fail .absentKey)
      | some tag =>
        let d := d.say s!"Found latest release: {tag}"
        if r.assets.isEmpty then choose (d.say s!"No assets found for release {tag}.") rest
        else .ok (d, r.assets)
    else .error (d.fail .illTyped)

/-- Downloads one file, if it has a place; `fetch` is what the service answers. A name
with a slash asks for a directory that does not exist. -/
def downloadAsset (system : HostSystem) (fetch : String → String) (d : Download) (a : Asset) :
    Download :=
  match d.fault, a.url, a.name with
  | some _, _, _ => d
  | none, some url, some name => match directory? system name with
    | none => d
    | some directory =>
      let d := (d.say s!"- Downloading {name} ...").request url 30
      if name.toList.contains '/' then d.fail .absentFile
      else (d.save (directory ++ "/" ++ name) (fetch url)).say s!"- Saved {name} to {directory}"
  | none, _, _ => d.fail .absentKey

def download (system : HostSystem) (status : Int) (releases : List Release) (fetch : String → String) :
    Download :=
  let d := ({} : Download).request listUrl 10
  if status ≠ 200 then d.fail (.violated .unstated)
  else if releases.isEmpty then d.fail (.violated .someRelease)
  else match choose d releases with
    | .error d => d
    | .ok (d, assets) => assets.foldl (downloadAsset system fetch) d

end Release

end Patchwork
