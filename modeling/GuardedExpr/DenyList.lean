/-
Deny-lists — the functions that expressions may not call.

Names are kept in canonical form, the form by which function tables look
functions up. The default list holds what runs processes or code, touches files
or the network, tells about the system, or calls other functions by name.
-/
import GuardedExpr.Host.CallableName

namespace GuardedExpr

/-- Denied functions under canonical names, each name once. -/
structure DenyList where
  entries : List String
deriving DecidableEq, Repr

namespace DenyList

/-- A list that denies nothing. -/
def empty : DenyList := ⟨[]⟩

def denies (d : DenyList) (name : String) : Bool := d.entries.contains (canonicalName name)

def insert (d : DenyList) (name : String) : DenyList :=
  if d.denies name then d else ⟨d.entries ++ [canonicalName name]⟩

def remove (d : DenyList) (name : String) : DenyList :=
  ⟨d.entries.filter (· != canonicalName name)⟩

/-- The list that denies exactly the given names. -/
def ofNames (names : List String) : DenyList := names.foldl insert empty

def size (d : DenyList) : Nat := d.entries.length

/-- The canonical names in order. -/
def names (d : DenyList) : List String := Text.sortNames d.entries

def processes : List String :=
  ["exec", "shell_exec", "system", "passthru", "proc_open", "popen", "pcntl_exec", "pcntl_fork",
   "posix_kill", "proc_terminate"]

def codeExecution : List String :=
  ["eval", "assert", "create_function", "call_user_func", "call_user_func_array",
   "forward_static_call", "forward_static_call_array", "register_shutdown_function",
   "register_tick_function", "array_map", "array_filter", "array_walk", "usort", "uasort",
   "uksort", "preg_replace_callback", "extract", "parse_str", "putenv", "ini_set",
   "set_error_handler", "set_exception_handler", "unserialize"]

def files : List String :=
  ["file_get_contents", "file_put_contents", "file", "fopen", "readfile", "unlink", "rename",
   "copy", "mkdir", "rmdir", "touch", "chmod", "chown", "symlink", "link", "tempnam",
   "move_uploaded_file", "glob", "scandir", "opendir", "highlight_file", "show_source",
   "parse_ini_file"]

def network : List String :=
  ["fsockopen", "pfsockopen", "stream_socket_client", "stream_socket_server", "curl_exec",
   "curl_multi_exec", "mail", "header"]

def disclosure : List String :=
  ["phpinfo", "getenv", "get_defined_vars", "get_defined_constants", "debug_backtrace",
   "var_dump", "print_r", "var_export"]

/-- The list in force unless another one is chosen. -/
def standard : DenyList := ofNames (processes ++ codeExecution ++ files ++ network ++ disclosure)

end DenyList

end GuardedExpr
